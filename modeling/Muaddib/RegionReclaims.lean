import Muaddib.RegionLifetimes
import Muaddib.RegionSecrecy

/-! # Reclaiming storage is unobservable and exact

`reclaim` drops the bytes of objects that are gone, and no capability for such an object passes a
check. Two systems that differ in those bytes only answer every call alike, so long as an id is
not given out a second time. -/
namespace Muaddib
open LabelledRuns SystemEntry

/-- The registries hold the same bytes for the object that the capability names, if it exists. -/
def SameBytes (k : Kernel) (cap : Capability) (reg reg' : RegionRegistry) : Prop :=
  k.objectExists cap.object = true → reg'.regions[cap.object]? = reg.regions[cap.object]?

namespace SameBytes
variable {k : Kernel} {cap : Capability} {reg reg' : RegionRegistry}

/-- Authority is checked first: past the check the object exists and the bytes are the same. -/
theorem cases (h : SameBytes k cap reg reg') (r : Rights) :
    (∃ e, k.check cap r = .error e) ∨
      k.check cap r = .ok () ∧ reg'.regions[cap.object]? = reg.regions[cap.object]? := by
  rcases k.check_cases cap r with ⟨hc, hl, -⟩ | he
  · exact Or.inr ⟨hc, h hl.exists⟩
  · exact Or.inl he

theorem checkedRange (h : SameBytes k cap reg reg') (r : Rights) (offset len : ℕ) :
    reg'.checkedRange k cap r offset len = reg.checkedRange k cap r offset len := by
  rcases h.cases r with ⟨e, he⟩ | ⟨-, hsame⟩
  · simp only [RegionRegistry.checkedRange, he]
  · simp only [RegionRegistry.checkedRange, hsame]

theorem read (h : SameBytes k cap reg reg') (offset len : ℕ) :
    reg'.read k cap offset len = reg.read k cap offset len := by
  rcases h.cases .READ with ⟨e, he⟩ | ⟨-, hsame⟩
  · simp only [RegionRegistry.read, RegionRegistry.checkedRange, he]
  · simp only [RegionRegistry.read, h.checkedRange, hsame]

theorem size (h : SameBytes k cap reg reg') : reg'.size k cap = reg.size k cap := by
  rcases h.cases .NONE with ⟨e, he⟩ | ⟨-, hsame⟩
  · simp only [RegionRegistry.size, RegionRegistry.checkedRange, he]
  · simp only [RegionRegistry.size, h.checkedRange, hsame]

theorem inspect {R : Type} (h : SameBytes k cap reg reg') (f : Bytes → R) :
    reg'.inspect k cap f = reg.inspect k cap f := by
  rcases h.cases .READ with ⟨e, he⟩ | ⟨-, hsame⟩
  · simp only [RegionRegistry.inspect, he]
  · simp only [RegionRegistry.inspect, hsame]

/-- The registry after writing `bytes` to one object or none. -/
def Rewrites (o : ObjectId) (reg reg' after after' : RegionRegistry) : Prop :=
  (after = reg ∧ after' = reg') ∨
    ∃ bytes, after = ⟨reg.regions.insert o bytes⟩ ∧ after' = ⟨reg'.regions.insert o bytes⟩

theorem Rewrites.agree {o a : ObjectId} {after after' : RegionRegistry}
    (h : Rewrites o reg reg' after after') (hsame : reg'.regions[a]? = reg.regions[a]?) :
    after'.regions[a]? = after.regions[a]? := by
  rcases h with ⟨rfl, rfl⟩ | ⟨bytes, rfl, rfl⟩
  · exact hsame
  · rw [FiniteMaps.getElem?_insert, FiniteMaps.getElem?_insert, hsame]

theorem write (h : SameBytes k cap reg reg') (offset : ℕ) (data : Bytes) :
    (reg'.write k cap offset data).1 = (reg.write k cap offset data).1 ∧
      Rewrites cap.object reg reg' (reg.write k cap offset data).2
        (reg'.write k cap offset data).2 := by
  have hrange := h.checkedRange .WRITE offset data.length
  rcases h.cases .WRITE with ⟨e, he⟩ | ⟨-, hsame⟩
  · simp only [RegionRegistry.write, RegionRegistry.checkedRange, he]
    exact ⟨trivial, Or.inl ⟨rfl, rfl⟩⟩
  · simp only [RegionRegistry.write, hrange, hsame]
    cases reg.checkedRange k cap .WRITE offset data.length with
    | error e => exact ⟨rfl, Or.inl ⟨rfl, rfl⟩⟩
    | ok range =>
      cases reg.regions[cap.object]? with
      | none => exact ⟨rfl, Or.inl ⟨rfl, rfl⟩⟩
      | some bytes => exact ⟨rfl, Or.inr ⟨_, rfl, rfl⟩⟩

theorem update {R : Type} (h : SameBytes k cap reg reg') (f : SliceUpdate R) :
    (reg'.update k cap f).1 = (reg.update k cap f).1 ∧
      Rewrites cap.object reg reg' (reg.update k cap f).2 (reg'.update k cap f).2 := by
  rcases h.cases (.READ ||| .WRITE) with ⟨e, he⟩ | ⟨hc, hsame⟩
  · simp only [RegionRegistry.update, he]
    exact ⟨trivial, Or.inl ⟨rfl, rfl⟩⟩
  · simp only [RegionRegistry.update, hc, hsame]
    cases reg.regions[cap.object]? with
    | none => exact ⟨rfl, Or.inl ⟨rfl, rfl⟩⟩
    | some bytes => exact ⟨rfl, Or.inr ⟨_, rfl, rfl⟩⟩

/-- A destruction goes through or fails the same, and erases the same object from both. -/
theorem destroyRegion (h : SameBytes k cap reg reg') :
    (reg'.destroyRegion k cap).1 = (reg.destroyRegion k cap).1 ∧
      (reg'.destroyRegion k cap).2.2 = (reg.destroyRegion k cap).2.2 ∧
      ((reg.destroyRegion k cap).2.1 = reg ∧ (reg'.destroyRegion k cap).2.1 = reg' ∨
        (reg.destroyRegion k cap).2.1 = ⟨reg.regions.erase cap.object⟩ ∧
          (reg'.destroyRegion k cap).2.1 = ⟨reg'.regions.erase cap.object⟩) := by
  rcases h.cases .DESTROY with ⟨e, he⟩ | ⟨hc, hsame⟩
  · simp only [RegionRegistry.destroyRegion, he]
    exact ⟨trivial, trivial, Or.inl ⟨trivial, trivial⟩⟩
  · simp only [RegionRegistry.destroyRegion, hc, Std.ExtTreeMap.contains_eq_isSome_getElem?, hsame]
    cases reg.regions[cap.object]?.isSome with
    | false => exact ⟨rfl, rfl, Or.inl ⟨rfl, rfl⟩⟩
    | true =>
      cases k.destroyObject cap with
      | mk result k' =>
        cases result with
        | error e => exact ⟨rfl, rfl, Or.inl ⟨rfl, rfl⟩⟩
        | ok u => exact ⟨rfl, rfl, Or.inr ⟨rfl, rfl⟩⟩

end SameBytes

/-- The systems are equal but for the bytes of objects that are gone. -/
structure AlikeStored (s t : System) : Prop where
  kernel : t.kernel = s.kernel
  sched : t.sched = s.sched
  channels : t.channels = s.channels
  memory (o : ObjectId) (h : s.kernel.objectExists o = true) :
    t.memory.regions[o]? = s.memory.regions[o]?

namespace Call

def isReclaim : Call → Bool
  | .reclaim => true
  | _ => false

def allocates : Call → Bool
  | .newObject _ | .newChannel | .newRegion _ => true
  | _ => false

end Call

theorem SystemEntry.allocates_call {e : SystemEntry} (h : e.allocates = true) :
    e.call.allocates = true := by
  unfold SystemEntry.allocates at h
  split at h
  · next hc _ => rw [hc]; rfl
  · next hc _ => rw [hc]; rfl
  · next hc _ => rw [hc]; rfl
  · next hc _ => rw [hc]; rfl
  · cases h

namespace AlikeStored
variable {s t u : System}

theorem reclaim (h : AlikeStored s t) : AlikeStored (s.step .reclaim).2 t :=
  ⟨h.kernel, h.sched, h.channels, fun o ho =>
    (h.memory o ho).trans (s.memory.reclaim_getElem? ho).symm⟩

theorem sameBytes (h : AlikeStored s t) (cap : Capability) :
    SameBytes s.kernel cap s.memory t.memory := h.memory cap.object

/-- A call on no region neither sees nor changes the stores. What exists afterwards existed before
or is new, without bytes on either side. -/
theorem untouched (h : AlikeStored s t) {call : Call} (haccess : call.regionAccess = none)
    (hregion : ∀ size, call ≠ .newRegion size) (hreclaim : call ≠ .reclaim)
    (hnew : call.allocates = true → s.memory.regions[(⟨s.kernel.nextId⟩ : ObjectId)]? = none ∧
      t.memory.regions[(⟨s.kernel.nextId⟩ : ObjectId)]? = none) :
    (t.step call).1 = (s.step call).1 ∧ AlikeStored (s.step call).2 (t.step call).2 := by
  have hexists := (s.step_effect call).exists_iff
  obtain ⟨k, sched, channels, memory⟩ := s
  obtain ⟨k', sched', channels', memory'⟩ := t
  obtain ⟨rfl, rfl, rfl, hmemory⟩ := h
  obtain ⟨hstep, hsame⟩ :=
    System.step_memory ⟨k', sched', channels', memory⟩ memory' haccess hregion hreclaim
  simp only at hstep
  rw [hstep]
  refine ⟨rfl, rfl, rfl, rfl, ?_⟩
  intro o ho
  rw [hsame]
  rcases (hexists o).mp ho with ⟨hbefore, -⟩ | ⟨hallocates, rfl⟩
  · exact hmemory o hbefore
  · obtain ⟨hnone, hnone'⟩ := hnew (allocates_call hallocates)
    exact hnone'.trans hnone.symm

/-- The same answer to every call but `reclaim`, so long as an id that is given out has no bytes. -/
theorem step (h : AlikeStored s t) {call : Call} (hreclaim : call.isReclaim = false)
    (hnew : call.allocates = true → s.memory.regions[(⟨s.kernel.nextId⟩ : ObjectId)]? = none ∧
      t.memory.regions[(⟨s.kernel.nextId⟩ : ObjectId)]? = none) :
    (t.step call).1 = (s.step call).1 ∧ AlikeStored (s.step call).2 (t.step call).2 := by
  have hplain (haccess : call.regionAccess = none) (hregion : ∀ size, call ≠ .newRegion size)
      (hreclaim : call ≠ .reclaim) := h.untouched haccess hregion hreclaim hnew
  have hexists := (s.step_effect call).exists_iff
  have hbytes := h.sameBytes
  obtain ⟨k, sched, channels, memory⟩ := s
  obtain ⟨k', sched', channels', memory'⟩ := t
  obtain ⟨rfl, rfl, rfl, hmemory⟩ := h
  cases call with
  | newRegion size =>
    rcases Nat.lt_or_ge size (2 ^ 63) with hsize | hsize
    · have hnewRegion (reg : RegionRegistry) : reg.newRegion k' size = _ :=
        RegionRegistry.newRegion_of_lt hsize
      simp only [System.step, hnewRegion] at hexists ⊢
      refine ⟨trivial, rfl, rfl, rfl, fun o ho => ?_⟩
      refine (FiniteMaps.getElem?_insert ..).trans (Eq.trans ?_ (FiniteMaps.getElem?_insert ..).symm)
      split
      · rfl
      · next hne =>
        rcases (hexists o).mp ho with ⟨hbefore, -⟩ | ⟨-, rfl⟩
        · exact hmemory o hbefore
        · exact absurd rfl hne
    · have hnewRegion (reg : RegionRegistry) : reg.newRegion k' size = _ :=
        RegionRegistry.newRegion_of_le hsize
      simp only [System.step, hnewRegion] at hexists ⊢
      refine ⟨trivial, rfl, rfl, rfl, fun o ho => ?_⟩
      rcases (hexists o).mp ho with ⟨hbefore, -⟩ | ⟨-, rfl⟩
      · exact hmemory o hbefore
      · obtain ⟨hnone, hnone'⟩ := hnew rfl
        exact hnone'.trans hnone.symm
  | read cap offset len =>
    exact ⟨congrArg (stopping _ _) ((hbytes cap).read offset len), rfl, rfl, rfl, hmemory⟩
  | inspect cap f =>
    exact ⟨congrArg (returning _ _) ((hbytes cap).inspect f), rfl, rfl, rfl, hmemory⟩
  | size cap => exact ⟨congrArg (stopping _ _) (hbytes cap).size, rfl, rfl, rfl, hmemory⟩
  | write cap offset data =>
    obtain ⟨hresult, hrewrites⟩ := (hbytes cap).write offset data
    exact ⟨congrArg (stopping _ _) hresult, rfl, rfl, rfl, fun o ho => hrewrites.agree (hmemory o ho)⟩
  | update cap f =>
    obtain ⟨hresult, hrewrites⟩ := (hbytes cap).update f
    exact ⟨congrArg (returning _ _) hresult, rfl, rfl, rfl, fun o ho => hrewrites.agree (hmemory o ho)⟩
  | destroyRegion cap =>
    obtain ⟨hresult, hkernel, hmem⟩ := (hbytes cap).destroyRegion
    refine ⟨congrArg (returning _ _) hresult, hkernel, rfl, rfl, ?_⟩
    intro o ho
    have hbefore : k'.objectExists o = true := by
      rcases (hexists o).mp ho with ⟨hbefore, -⟩ | ⟨hallocates, -⟩
      · exact hbefore
      · cases allocates_call hallocates
    change (memory'.destroyRegion k' cap).2.1.regions[o]? = (memory.destroyRegion k' cap).2.1.regions[o]?
    rcases hmem with ⟨hm, hm'⟩ | ⟨hm, hm'⟩
    · rw [hm, hm', hmemory o hbefore]
    · rw [hm, hm', FiniteMaps.getElem?_erase, FiniteMaps.getElem?_erase, hmemory o hbefore]
  | reclaim => cases hreclaim
  | _ =>
    refine hplain rfl ?_ ?_
    · intro size heq
      cases heq
    · intro heq
      cases heq

end AlikeStored

/-- The calls other than `reclaim` and what they returned. -/
def answers (tr : List SystemEntry) : List (Call × Outcome) :=
  (tr.filter fun e => !e.call.isReclaim).map fun e => (e.call, e.outcome)

theorem answers_append (tr later : List SystemEntry) :
    answers (tr ++ later) = answers tr ++ answers later := by
  simp [answers]

theorem objectCount_le_calls (s : System) (calls : List Call) :
    objectCount (trace System.step s calls) ≤ calls.countP Call.allocates := by
  induction calls generalizing s with
  | nil => exact le_rfl
  | cons c calls ih =>
    rw [trace, objectCount, List.countP_cons, List.countP_cons]
    apply Nat.add_le_add (ih _)
    split
    · next hallocates => exact (if_pos (allocates_call hallocates)).ge
    · exact Nat.zero_le _

/-- The next id has no bytes in the registry, so long as ids do not wrap. -/
theorem no_bytes_at_next {calls : List Call} (h : calls.countP Call.allocates < 2 ^ 64) :
    (final System.step .new calls).memory.regions[
      (⟨(final System.step .new calls).kernel.nextId⟩ : ObjectId)]? = none := by
  have hrun : Run System.step (fun _ _ => True) .new (trace System.step .new calls)
      (final System.step .new calls) := Run.of_calls fun _ _ => trivial
  have hlt := (objectCount_le_calls .new calls).trans_lt h
  have hnext := (Allocated.run hrun hlt.le).toNat_nextId hlt
  cases hbytes : (final System.step .new calls).memory.regions[
      (⟨(final System.step .new calls).kernel.nextId⟩ : ObjectId)]? with
  | none => rfl
  | some bytes =>
    have hbelow := (Filled.run hrun hlt.le).below _ _ hbytes
    simp only [hnext] at hbelow
    omega

theorem countP_allocates_filter (calls : List Call) :
    (calls.filter fun c => !c.isReclaim).countP Call.allocates = calls.countP Call.allocates := by
  rw [List.countP_filter]
  apply List.countP_congr
  intro c _
  cases c <;> simp [Call.allocates, Call.isReclaim]

/-- A run answers like the run of the same calls without its reclaims. -/
theorem answers_without_reclaims (calls : List Call) (h : calls.countP Call.allocates ≤ 2 ^ 64) :
    answers (trace System.step .new calls) =
      answers (trace System.step .new (calls.filter fun c => !c.isReclaim)) ∧
    AlikeStored (final System.step .new calls)
      (final System.step .new (calls.filter fun c => !c.isReclaim)) := by
  induction calls using List.reverseRecOn with
  | nil => exact ⟨rfl, rfl, rfl, rfl, fun _ _ => rfl⟩
  | append_singleton calls c ih =>
    rw [List.countP_append, List.countP_singleton] at h
    obtain ⟨hanswers, halike⟩ := ih (by omega)
    rw [trace_append, final_append, List.filter_append, answers_append]
    cases hc : c.isReclaim with
    | true =>
      have hfilter : [c].filter (fun c => !c.isReclaim) = [] := by simp [hc]
      have hnothing : answers (trace System.step (final System.step .new calls) [c]) = [] := by
        simp [answers, trace, entry, hc]
      rw [hfilter, hnothing, List.append_nil, List.append_nil]
      cases c with
      | reclaim => exact ⟨hanswers, halike.reclaim⟩
      | _ => cases hc
    | false =>
      have hfilter : [c].filter (fun c => !c.isReclaim) = [c] := by simp [hc]
      have hnext := halike.kernel
      obtain ⟨hsame, hstep⟩ := halike.step hc fun hallocates => by
        rw [if_pos hallocates] at h
        have hkept := countP_allocates_filter calls
        refine ⟨no_bytes_at_next (by omega), ?_⟩
        rw [← hnext]
        exact no_bytes_at_next (by omega)
      rw [hfilter, trace_append, final_append, answers_append, hanswers]
      refine ⟨congrArg _ ?_, hstep⟩
      simp [answers, trace, entry, hc, hsame]

theorem RegionRegistry.reclaim_eq_none_iff (reg : RegionRegistry) (k : Kernel) (o : ObjectId) :
    (reg.reclaim k).2.regions[o]? = none ↔
      reg.regions[o]? = none ∨ k.objectExists o = false := by
  rw [reclaim, Std.ExtTreeMap.getElem?_filter']
  cases reg.regions[o]? <;> simp [Option.filter]

theorem RegionRegistry.reclaim_counts (reg : RegionRegistry) (k : Kernel) : (reg.reclaim k).1 =
    {o : ObjectId | reg.regions[o]? ≠ none ∧ (reg.reclaim k).2.regions[o]? = none}.ncard := by
  let dropped := reg.regions.keys.filter fun o => !k.objectExists o
  have hkept : (reg.reclaim k).2.regions.keys = reg.regions.keys.filter k.objectExists :=
    Std.ExtTreeMap.keys_filter_key
  have hsizes : (reg.reclaim k).1 = dropped.length := by
    change reg.regions.size - (reg.reclaim k).2.regions.size = dropped.length
    rw [← Std.ExtTreeMap.length_keys, ← Std.ExtTreeMap.length_keys, hkept,
      List.length_eq_countP_add_countP k.objectExists, List.countP_eq_length_filter,
      List.countP_eq_length_filter, Nat.add_sub_cancel_left]
    simp [dropped]
  have hset : {o : ObjectId | reg.regions[o]? ≠ none ∧ (reg.reclaim k).2.regions[o]? = none} =
      ↑dropped.toFinset := by
    ext o
    simp only [Set.mem_ofPred_eq, reclaim_eq_none_iff, List.coe_toFinset, dropped, List.mem_filter,
      Std.ExtTreeMap.mem_keys, Std.ExtTreeMap.mem_iff_isSome_getElem?, Option.isSome_iff_ne_none,
      Bool.not_eq_true']
    tauto
  have hnodup : dropped.Nodup := by
    apply List.Nodup.filter
    apply Std.ExtTreeMap.nodup_keys
  rw [hsizes, hset, Set.ncard_coe_finset, List.toFinset_card_of_nodup hnodup]

/-- Reclaiming is unobservable and exact: wherever reclaims are inserted into a run, every other
call answers the same, and after each reclaim the regions stored are those created and destroyed
in neither way, with the number of regions dropped returned. -/
theorem reclaim_unobservable_and_exact {calls : List Call}
    (hbound : calls.countP Call.allocates ≤ 2 ^ 64) :
    (∀ calls' : List Call,
      calls'.filter (fun c => !c.isReclaim) = calls.filter (fun c => !c.isReclaim) →
      answers (trace System.step .new calls') = answers (trace System.step .new calls)) ∧
    ∀ early late : List Call, calls = early ++ .reclaim :: late →
      let s := final System.step .new early
      let s' := (s.step .reclaim).2
      (∀ o : ObjectId, s'.memory.regions[o]? ≠ none ↔
        (∃ e ∈ trace System.step .new early, createsRegion o e ≠ none) ∧
        ∀ e ∈ trace System.step .new early, destroys o e = false) ∧
      (s.step .reclaim).1 = .ok (.count
        {o : ObjectId | s.memory.regions[o]? ≠ none ∧ s'.memory.regions[o]? = none}.ncard) := by
  constructor
  · intro calls' hsame
    have hcount : calls'.countP Call.allocates = calls.countP Call.allocates := by
      rw [← countP_allocates_filter calls', hsame, countP_allocates_filter]
    rw [(answers_without_reclaims calls hbound).1, (answers_without_reclaims calls' (by omega)).1,
      hsame]
  · intro early late hcalls s s'
    subst hcalls
    rw [List.countP_append] at hbound
    have hrun : Run System.step (fun _ _ => True) .new (trace System.step .new early) s :=
      Run.of_calls fun _ _ => trivial
    have hstored := Stored.run hrun ((objectCount_le_calls .new early).trans (by omega))
    refine ⟨?_, congrArg (fun n => (.ok (.count n) : Outcome)) (s.memory.reclaim_counts s.kernel)⟩
    intro o
    change (s.memory.reclaim s.kernel).2.regions[o]? ≠ none ↔ _
    rw [ne_eq, RegionRegistry.reclaim_eq_none_iff, not_or, Bool.not_eq_false]
    constructor
    · intro ⟨hbytes, hexists⟩
      refine ⟨hstored.created o hbytes, ?_⟩
      intro e he
      rw [← Bool.not_eq_true]
      intro hd
      have hgone := (hstored.gone o ⟨e, he, hd⟩).2
      rw [hexists] at hgone
      cases hgone
    · intro ⟨hcreated, halive⟩
      exact (hstored.kept o hcreated halive).symm

/-- A region destroyed directly, with and without a reclaim before the next one is created. -/
theorem reclaim_unobservable_and_exact_destroyed :
    let calls : List Call := [.newRegion 2,
      .destroyObject ⟨⟨0⟩, .READ ||| .WRITE ||| .GRANT ||| .DESTROY, 0⟩, .newRegion 1,
      .read ⟨⟨0⟩, .READ, 0⟩ 0 1]
    let calls' : List Call := [.newRegion 2,
      .destroyObject ⟨⟨0⟩, .READ ||| .WRITE ||| .GRANT ||| .DESTROY, 0⟩, .reclaim, .newRegion 1,
      .read ⟨⟨0⟩, .READ, 0⟩ 0 1]
    answers (trace System.step .new calls') = answers (trace System.step .new calls) := by
  intro calls calls'
  have hbound : calls.countP Call.allocates ≤ 2 ^ 64 := by decide +kernel
  exact (reclaim_unobservable_and_exact hbound).1 calls' rfl

private theorem answers_getLast? (s : System) (calls : List Call) {c : Call}
    (hc : c.isReclaim = false) : (answers (trace System.step s (calls ++ [c]))).getLast? =
      some (c, ((final System.step s calls).step c).1) := by
  rw [trace_append, answers_append]
  simp [answers, trace, entry, hc]

/-- Back at id zero, a new object passes checks with the registry as it was. -/
private theorem wrapped_object (k : ℕ) (s : System) (hk : s.kernel.nextId + UInt64.ofNat k = 0) :
    ∃ t, final System.step s (List.replicate k (.newObject .NONE) ++ [.newObject .READ]) = t ∧
      t.memory = s.memory ∧ t.kernel.check ⟨⟨0⟩, .READ, 0⟩ .NONE = .ok () := by
  obtain ⟨kernel, hfinal, hnext⟩ := s.final_newObjects k
  refine ⟨_, rfl, ?_, Kernel.check_NONE.mpr ?_⟩
  · rw [final_append, hfinal]
    rfl
  · rw [final_append, hfinal]
    refine (kernel.newObject_epochs .READ ⟨0⟩).trans (if_pos ?_)
    rw [hnext, hk]

/-- A region destroyed directly, and `k` allocations before its id names a new object. -/
private theorem reclaim_observed (k : ℕ) (hk : 1 + UInt64.ofNat k = 0) : ∃ calls calls' : List Call,
    calls'.filter (fun c => !c.isReclaim) = calls.filter (fun c => !c.isReclaim) ∧
    answers (trace System.step .new calls') ≠ answers (trace System.step .new calls) := by
  let first : List Call := [.newRegion 1,
    .destroyObject ⟨⟨0⟩, .READ ||| .WRITE ||| .GRANT ||| .DESTROY, 0⟩]
  let rest : List Call := List.replicate k (.newObject .NONE) ++ [.newObject .READ]
  let last : Call := .size ⟨⟨0⟩, .READ, 0⟩
  let s := final System.step .new first
  let s' := (s.step .reclaim).2
  obtain ⟨t, ht, hmemory, hcheck⟩ := wrapped_object k s hk
  obtain ⟨t', ht', hmemory', hcheck'⟩ := wrapped_object k s' hk
  have hbytes : t.memory.regions[(⟨0⟩ : ObjectId)]? = some [0] := by
    rw [hmemory]
    decide +kernel
  have hnone : t'.memory.regions[(⟨0⟩ : ObjectId)]? = none := by
    rw [hmemory']
    decide +kernel
  have hsize : (t.step last).1 = .ok (.count 1) := by
    simp [last, System.step, RegionRegistry.size, RegionRegistry.checkedRange, hcheck, hbytes,
      checkedAdd, stopping]
  have hsize' : (t'.step last).1 = .error (.err (.memory (.unknownRegion ⟨0⟩))) := by
    simp [last, System.step, RegionRegistry.size, RegionRegistry.checkedRange, hcheck', hnone,
      stopping]
  refine ⟨(first ++ rest) ++ [last], ((first ++ [.reclaim]) ++ rest) ++ [last], ?_, ?_⟩
  · simp [first, Call.isReclaim]
  · intro hsame
    have hlast := congrArg List.getLast? hsame
    have hfinal : final System.step .new (first ++ rest) = t :=
      (final_append System.new first rest).trans ht
    have hfinal' : final System.step .new ((first ++ [.reclaim]) ++ rest) = t' :=
      (final_append System.new (first ++ [.reclaim]) rest).trans ht'
    rw [answers_getLast? _ _ rfl, answers_getLast? _ _ rfl, hfinal, hfinal', hsize, hsize'] at hlast
    cases hlast

/-- After `2 ^ 64` allocations a new object has the id of a region that was destroyed directly, and
has its size unless it was reclaimed. -/
theorem reclaim_observed_when_ids_wrap : ¬∀ calls calls' : List Call,
    calls'.filter (fun c => !c.isReclaim) = calls.filter (fun c => !c.isReclaim) →
    answers (trace System.step .new calls') = answers (trace System.step .new calls) := by
  intro hclaim
  obtain ⟨calls, calls', hsame, hdiffer⟩ := reclaim_observed (2 ^ 64 - 1) (by decide +kernel)
  exact hdiffer (hclaim calls calls' hsame)

end Muaddib
