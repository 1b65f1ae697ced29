import Muaddib.GrantBatches

/-! # Handles, objects and processes by number

Handles are counted, and given out once while the counter lasts. -/
namespace Muaddib

def handleTo (i : ℕ) : Handle := ⟨UInt32.ofNat i⟩

def objectAt (k : ℕ) : ObjectId := ⟨UInt64.ofNat k⟩

theorem objectAt_inj {i k : ℕ} (hi : i < 2 ^ 64) (hk : k < 2 ^ 64) :
    objectAt i = objectAt k ↔ i = k := by
  constructor
  · intro h
    exact MachineCounters.ofNat_inj hi hk (congrArg ObjectId.val h)
  · exact congrArg objectAt

def pidAt (j : ℕ) : ProcessId := ⟨UInt64.ofNat j⟩

theorem pidAt_inj {i j : ℕ} (hi : i < 2 ^ 64) (hj : j < 2 ^ 64) : pidAt i = pidAt j ↔ i = j := by
  constructor
  · intro h
    exact MachineCounters.ofNat_inj hi hj (congrArg ProcessId.val h)
  · exact congrArg pidAt

/-- The table is filled with handles below its counter, which stands at `n`. -/
structure Process.Upto (p : Process) (n : ℕ) : Prop where
  nextHandle : p.nextHandle = UInt32.ofNat n
  below : ∀ h c, p.capability h = some c → h.val.toNat < n

namespace Process.Upto
variable {p : Process} {n : ℕ} {cap : Capability}

theorem fresh (h : p.Upto n) (hn : n < 2 ^ 32) : p.capability ⟨p.nextHandle⟩ = none := by
  by_contra hne
  obtain ⟨c, hc⟩ := Option.ne_none_iff_exists'.mp hne
  have hlt := h.below _ c hc
  rw [h.nextHandle, UInt32.toNat_ofNat', Nat.mod_eq_of_lt hn] at hlt
  exact Nat.lt_irrefl n hlt

theorem keeps (h : p.Upto n) (hn : n < 2 ^ 32) {a : Handle} {c : Capability}
    (ha : p.capability a = some c) : (p.grant cap).2.capability a = some c := by
  rw [capability_grant, if_neg, ha]
  intro heq
  rw [← heq, h.fresh hn] at ha
  cases ha

theorem grant (h : p.Upto n) (hn : n < 2 ^ 32) : (p.grant cap).2.Upto (n + 1) := by
  refine ⟨?_, fun a c ha => ?_⟩
  · change p.nextHandle + 1 = _
    rw [h.nextHandle, UInt32.ofNat_add]
    rfl
  · rw [capability_grant] at ha
    split at ha
    · next heq =>
      rw [← heq, h.nextHandle, UInt32.toNat_ofNat', Nat.mod_eq_of_lt hn]
      exact Nat.lt_succ_self n
    · exact Nat.lt_succ_of_lt (h.below a c ha)

/-- A batch of grants goes to the next handles, one after the other. -/
theorem grantAll (h : p.Upto n) (caps : List Capability) (hn : n + caps.length ≤ 2 ^ 32) :
    (p.grantAll caps).1 = (List.range' n caps.length).map handleTo ∧
      (p.grantAll caps).2.Upto (n + caps.length) ∧
      (∀ a c, p.capability a = some c → (p.grantAll caps).2.capability a = some c) ∧
      ∀ i c, caps[i]? = some c → (p.grantAll caps).2.capability (handleTo (n + i)) = some c := by
  induction caps generalizing p n with
  | nil => exact ⟨rfl, h, fun _ _ ha => ha, fun _ _ hi => by cases hi⟩
  | cons cap caps ih =>
    rw [List.length_cons] at hn
    have hfirst : (p.grant cap).2.Upto (n + 1) := h.grant (by omega)
    obtain ⟨hhandles, htable, hkeep, hnew⟩ := ih hfirst (by omega)
    rw [grantAll_cons]
    refine ⟨?_, ?_, fun a c ha => hkeep a c (h.keeps (by omega) ha), ?_⟩
    · rw [hhandles, h.nextHandle, List.length_cons, List.range'_succ, List.map_cons]
      rfl
    · rw [List.length_cons, Nat.add_comm caps.length 1, ← Nat.add_assoc]
      exact htable
    · intro i c hi
      cases i with
      | zero =>
        refine hkeep _ _ ?_
        rw [capability_grant, h.nextHandle, ← Option.some.inj hi]
        exact if_pos rfl
      | succ i =>
        have hc := hnew i c hi
        rwa [Nat.add_assoc, Nat.add_comm 1] at hc

theorem handles (h : p.Upto n) (hn : n ≤ 2 ^ 32)
    (hall : ∀ i, i < n → p.capability (handleTo i) ≠ none) :
    p.handles = (List.range n).map handleTo := by
  have hlt : ∀ i, i < n → (handleTo i).val.toNat = i := by
    intro i hi
    rw [handleTo, UInt32.toNat_ofNat', Nat.mod_eq_of_lt (by omega)]
  have hmem : ∀ a, a ∈ p.handles ↔ p.capability a ≠ none := by
    intro a
    rw [Process.handles, Std.ExtTreeMap.mem_keys, capability, Std.ExtTreeMap.mem_iff_isSome_getElem?,
      Option.isSome_iff_ne_none]
  have hsorted : ((List.range n).map handleTo).Pairwise fun a b => compare a b = .lt := by
    rw [List.pairwise_map]
    refine List.pairwise_lt_range.imp_of_mem fun {i j} hi hj hij => ?_
    rw [List.mem_range] at hi hj
    change compareOfLessAndEq (handleTo i).val (handleTo j).val = .lt
    rw [compareOfLessAndEq, if_pos]
    rw [UInt32.lt_iff_toNat_lt, hlt i hi, hlt j hj]
    exact hij
  have hnodup : ((List.range n).map handleTo).Nodup := by
    refine hsorted.imp fun {a b} hab => ?_
    rintro rfl
    have hself : compare a a = .eq := Std.ReflCmp.compare_self
    rw [hself] at hab
    cases hab
  have hperm : p.capabilities.keys.Perm ((List.range n).map handleTo) := by
    rw [List.perm_ext_iff_of_nodup Std.ExtTreeMap.nodup_keys hnodup]
    intro a
    rw [← Process.handles, hmem, List.mem_map]
    constructor
    · intro ha
      obtain ⟨c, hc⟩ := Option.ne_none_iff_exists'.mp ha
      refine ⟨a.val.toNat, List.mem_range.mpr (h.below a c hc), ?_⟩
      rw [handleTo, UInt32.ofNat_toNat]
    · rintro ⟨i, hi, rfl⟩
      exact hall i (List.mem_range.mp hi)
  refine hperm.eq_of_pairwise (fun a b _ _ hab hba => ?_) Std.ExtTreeMap.ordered_keys hsorted
  have hswap : compare a b = (compare b a).swap := Std.OrientedCmp.eq_swap
  rw [hswap, hba] at hab
  cases hab

theorem depart (h : p.Upto n) (batch : List (Grant × Capability)) : (p.depart batch).Upto n := by
  refine ⟨(p.depart_nextHandle batch).trans h.nextHandle, fun a c ha => ?_⟩
  rw [capability_depart] at ha
  split at ha
  · cases ha
  · exact h.below a c ha

theorem recordReceive (h : p.Upto n) (s : EventStamp) : (p.recordReceive s).2.Upto n :=
  ⟨h.nextHandle, h.below⟩

end Process.Upto

theorem Process.depart_keeps {p : Process} {a b : Handle} {cap c : Capability}
    (ha : p.capability a = some cap) (hb : p.capability b = some c) (hne : c ≠ cap) :
    (p.depart [(.move a, cap)]).capability b = some c := by
  rw [capability_depart, if_neg, hb]
  intro hmem
  have hba : b = a := by simpa [leavingHandles, Grant.leaving] using hmem
  rw [hba, ha] at hb
  exact hne (Option.some.inj hb).symm

/-- The table is filled with these capabilities, in the order of its handles. -/
structure Process.Lists (p : Process) (caps : List Capability) : Prop where
  upto : p.Upto caps.length
  held : ∀ i c, caps[i]? = some c → p.capability (handleTo i) = some c

namespace Process.Lists
variable {p : Process} {caps more : List Capability} {a : Handle} {c : Capability}

theorem new (id : ProcessId) : (Process.new id).Lists [] :=
  ⟨⟨rfl, fun h c hc => by simp at hc⟩, fun i c hc => by cases hc⟩

theorem recordReceive (h : p.Lists caps) (s : EventStamp) : (p.recordReceive s).2.Lists caps :=
  ⟨h.upto.recordReceive s, h.held⟩

theorem grantAll (h : p.Lists caps) (hn : caps.length + more.length ≤ 2 ^ 32) :
    (p.grantAll more).2.Lists (caps ++ more) := by
  obtain ⟨-, hupto, hkeep, hnew⟩ := h.upto.grantAll more hn
  rw [← List.length_append] at hupto
  refine ⟨hupto, fun i c hi => ?_⟩
  rcases Nat.lt_or_ge i caps.length with hlt | hge
  · rw [List.getElem?_append_left hlt] at hi
    exact hkeep _ _ (h.held i c hi)
  · rw [List.getElem?_append_right hge] at hi
    have hc := hnew _ c hi
    rwa [Nat.add_sub_cancel' hge] at hc

theorem capability_iff (h : p.Lists caps) :
    p.capability a = some c ↔ ∃ i, a = handleTo i ∧ caps[i]? = some c := by
  constructor
  · intro ha
    have hlt := h.upto.below a c ha
    have hself : a = handleTo a.val.toNat := by rw [handleTo, UInt32.ofNat_toNat]
    refine ⟨a.val.toNat, hself, ?_⟩
    have hget := List.getElem?_eq_getElem hlt
    have hheld := h.held _ _ hget
    rw [← hself, ha] at hheld
    rw [hget, hheld]
  · rintro ⟨i, rfl, hi⟩
    exact h.held i c hi

theorem handles (h : p.Lists caps) (hn : caps.length ≤ 2 ^ 32) :
    p.handles = (List.range caps.length).map handleTo := by
  refine h.upto.handles hn fun i hi => ?_
  rw [h.held i _ (List.getElem?_eq_getElem hi)]
  simp

end Process.Lists

theorem handleTo_inj {i j : ℕ} (hi : i < 2 ^ 32) (hj : j < 2 ^ 32) :
    handleTo i = handleTo j ↔ i = j := by
  constructor
  · intro h
    have hval := congrArg (fun h => h.val.toNat) h
    simp only [handleTo, UInt32.toNat_ofNat'] at hval
    rwa [Nat.mod_eq_of_lt hi, Nat.mod_eq_of_lt hj] at hval
  · exact congrArg handleTo

inductive TableCall where
  | grant (cap : Capability)
  | take (handle : Handle)

namespace Process

def perform (p : Process) : TableCall → Process
  | .grant cap => (p.grant cap).2
  | .take handle => (p.take handle).2

def performAll (p : Process) (calls : List TableCall) : Process := calls.foldl perform p

def issued (p : Process) : List TableCall → List Handle
  | [] => []
  | .grant cap :: calls => (p.grant cap).1 :: (p.grant cap).2.issued calls
  | .take handle :: calls => (p.take handle).2.issued calls

/-- No handle is returned twice, a grant finds its handle vacant, and what left the table stays
unnamed. -/
structure HandlesFresh (p : Process) (calls : List TableCall) : Prop where
  distinct : (p.issued calls).Nodup
  vacant : ∀ (before after : List TableCall) (cap : Capability),
    calls = before ++ .grant cap :: after →
      (p.performAll before).capability ((p.performAll before).grant cap).1 = none
  gone : ∀ before after, calls = before ++ after → ∀ h ∈ p.issued before,
    (p.performAll before).capability h = none → (p.performAll calls).capability h = none

end Process

def grantsIn (calls : List TableCall) : ℕ :=
  calls.countP fun | .grant _ => true | .take _ => false

section Calls
variable {p : Process} {calls : List TableCall} {n : ℕ}

open Process

theorem performAll_append (p : Process) (before after : List TableCall) :
    p.performAll (before ++ after) = (p.performAll before).performAll after := List.foldl_append

theorem issued_append (p : Process) (before after : List TableCall) :
    p.issued (before ++ after) = p.issued before ++ (p.performAll before).issued after := by
  induction before generalizing p with
  | nil => rfl
  | cons call before ih =>
    cases call with
    | grant cap => exact congrArg ((p.grant cap).1 :: ·) (ih (p.grant cap).2)
    | take handle => exact ih (p.take handle).2

/-- The grants return the counter's next values, whatever is taken in between. -/
theorem issued_eq (h : p.nextHandle = UInt32.ofNat n) :
    p.issued calls = (List.range' n (grantsIn calls)).map handleTo := by
  induction calls generalizing p n with
  | nil => rfl
  | cons call calls ih =>
    cases call with
    | take handle =>
      rw [issued, ih (p := (p.take handle).2) h, grantsIn, grantsIn, List.countP_cons]
      rfl
    | grant cap =>
      have hnext : (p.grant cap).2.nextHandle = UInt32.ofNat (n + 1) := by
        change p.nextHandle + 1 = _
        rw [h, UInt32.ofNat_add]
        rfl
      have hcount : grantsIn (.grant cap :: calls) = grantsIn calls + 1 := by
        rw [grantsIn, grantsIn, List.countP_cons]
        rfl
      rw [issued, ih hnext, hcount, List.range'_succ, List.map_cons, handleTo, ← h]
      rfl

theorem nodup_handles_iff (n : ℕ) : ((List.range' 0 n).map handleTo).Nodup ↔ n ≤ 2 ^ 32 := by
  constructor
  · intro hnodup
    by_contra hlarge
    have hlen : 2 ^ 32 < ((List.range' 0 n).map handleTo).length := by
      rw [List.length_map, List.length_range']
      omega
    have hsame : ((List.range' 0 n).map handleTo)[0] = ((List.range' 0 n).map handleTo)[2 ^ 32] := by
      rw [List.getElem_map, List.getElem_map, List.getElem_range', List.getElem_range']
      decide
    exact absurd (hnodup.getElem_inj_iff.mp hsame) (by decide)
  · intro hle
    refine List.Nodup.map_on (fun i hi j hj hij => ?_) List.nodup_range'
    rw [List.mem_range'_1] at hi hj
    exact (handleTo_inj (by omega) (by omega)).mp hij

theorem held_of_performAll {h : Handle} (hne : (p.performAll calls).capability h ≠ none) :
    h ∈ p.issued calls ∨ p.capability h ≠ none := by
  induction calls generalizing p with
  | nil => exact Or.inr hne
  | cons call calls ih =>
    cases call with
    | grant cap =>
      rcases ih (p := (p.grant cap).2) hne with hmem | hheld
      · exact Or.inl (List.mem_cons_of_mem _ hmem)
      · rw [capability_grant] at hheld
        split at hheld
        · next heq => exact Or.inl (heq ▸ List.mem_cons_self)
        · exact Or.inr hheld
    | take handle =>
      rcases ih (p := (p.take handle).2) hne with hmem | hheld
      · exact Or.inl hmem
      · rw [capability_take] at hheld
        split at hheld
        · exact absurd rfl hheld
        · exact Or.inr hheld

end Calls

/-- A process never returns a handle twice, never overwrites a capability and never lets a handle
name a later one exactly as long as it is granted at most `2 ^ 32` capabilities. -/
theorem Process.handles_never_reused (id : ProcessId) (calls : List TableCall) :
    (Process.new id).HandlesFresh calls ↔ grantsIn calls ≤ 2 ^ 32 := by
  have hissued : ∀ calls, (Process.new id).issued calls =
      (List.range' 0 (grantsIn calls)).map handleTo := fun _ => issued_eq rfl
  constructor
  · intro h
    have hdistinct := h.distinct
    rwa [hissued, nodup_handles_iff] at hdistinct
  · intro hle
    have hdistinct : ((Process.new id).issued calls).Nodup := by
      rw [hissued, nodup_handles_iff]
      exact hle
    have hnew : ∀ h, (Process.new id).capability h = none := capability_new id
    refine ⟨hdistinct, ?_, ?_⟩
    · rintro before after cap rfl
      by_contra hheld
      rw [issued_append] at hdistinct
      rcases held_of_performAll hheld with hmem | hne
      · exact (List.disjoint_of_nodup_append hdistinct) hmem List.mem_cons_self
      · exact hne (hnew _)
    · rintro before after rfl h hmem hnone
      by_contra hheld
      rw [performAll_append] at hheld
      rw [issued_append] at hdistinct
      rcases held_of_performAll hheld with hlater | hne
      · exact (List.disjoint_of_nodup_append hdistinct) hmem hlater
      · exact hne hnone

/-- The grant after `2 ^ 32` others returns handle 0 again. -/
theorem Process.handle_reused_after_wrap :
    ¬∀ (id : ProcessId) (calls : List TableCall), (Process.new id).HandlesFresh calls := by
  intro hclaim
  have hfresh := (hclaim ⟨0⟩ (List.replicate (2 ^ 32 + 1) (.grant ⟨⟨0⟩, .ALL, 0⟩))).distinct
  have hcount : ∀ k, grantsIn (List.replicate k (.grant ⟨⟨0⟩, .ALL, 0⟩)) = k := by
    intro k
    rw [grantsIn, List.countP_replicate]
    rfl
  rw [issued_eq (n := 0) rfl, hcount, nodup_handles_iff] at hfresh
  omega

end Muaddib
