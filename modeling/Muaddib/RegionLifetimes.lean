import Muaddib.BatchOrders
import Muaddib.OwnershipHandoff
import Muaddib.RegionHistories

/-! # The lifetimes of regions

An object exists from its allocation until it is destroyed, by the registry or directly. The bytes of
a region are stored for as long as it exists. -/
namespace Muaddib
open LabelledRuns

namespace SystemEntry

/-- The call destroyed the object `o`, through the registry or directly. -/
def destroys (o : ObjectId) (e : SystemEntry) : Bool :=
  match e.call, e.outcome with
  | .destroyObject cap, .ok _ | .destroyRegion cap, .ok _ => cap.object = o
  | _, _ => false

end SystemEntry

open SystemEntry

theorem Kernel.objectExists_iff {k : Kernel} {o : ObjectId} :
    k.objectExists o = true ↔ k.epochs[o]? ≠ none := by
  rw [objectExists, Std.ExtTreeMap.contains_eq_isSome_getElem?, Option.isSome_iff_ne_none]

theorem Kernel.Live.exists {k : Kernel} {cap : Capability} (h : k.Live cap) :
    k.objectExists cap.object = true := by
  rw [objectExists_iff, show k.epochs[cap.object]? = some cap.epoch from h]
  exact Option.some_ne_none _

theorem Kernel.exists_newObject (k : Kernel) (r : Rights) (o : ObjectId) :
    (k.newObject r).2.objectExists o = true ↔ k.objectExists o = true ∨ o = ⟨k.nextId⟩ := by
  rw [objectExists_iff, objectExists_iff, newObject_epochs]
  split
  · next heq => simp [heq]
  · next hne => simp [Ne.symm hne]

theorem Kernel.Live.exists_bump {k : Kernel} {cap : Capability} (h : k.Live cap) (o : ObjectId) :
    (k.bump cap.object cap.epoch).objectExists o = true ↔ k.objectExists o = true := by
  rw [objectExists_iff, objectExists_iff, bump_epochs]
  split
  · next heq =>
    rw [← heq, show k.epochs[cap.object]? = some cap.epoch from h]
    simp
  · rfl

theorem Kernel.exists_remove (k : Kernel) (o a : ObjectId) :
    (k.remove o).objectExists a = true ↔ k.objectExists a = true ∧ ¬o = a := by
  rw [objectExists_iff, objectExists_iff, remove_epochs]
  split
  · next heq => simp [heq]
  · next hne => simp [hne]

theorem Resolved.objectExists_iff {k : Kernel} {p : Process} {batch : List (Grant × Capability)}
    (h : Resolved k p batch) (o : ObjectId) :
    (moveObjects k batch).objectExists o = true ↔ k.objectExists o = true := by
  rw [Kernel.objectExists_iff, Kernel.objectExists_iff]
  by_cases ho : p.Moves (batch.map Prod.fst) o
  · rw [h.applied.moved o ho, ne_eq, Option.map_eq_none_iff]
  · rw [h.applied.unmoved o ho]

section Existence
variable {s s' : System} {call : Call} {outcome : Outcome}

/-- What exists after a call: what existed and was not destroyed, and what was allocated. -/
theorem Effect.exists_iff (h : Effect s call outcome s') (o : ObjectId) :
    s'.kernel.objectExists o = true ↔
      s.kernel.objectExists o = true ∧ destroys o ⟨s, call, outcome, s'⟩ = false ∨
      allocates ⟨s, call, outcome, s'⟩ = true ∧ o = ⟨s.kernel.nextId⟩ := by
  cases h with
  | newObject r => simpa [destroys, allocates] using s.kernel.exists_newObject r o
  | newChannel =>
    simpa [destroys, allocates, ChannelRegistry.newChannel] using s.kernel.exists_newObject _ o
  | newRegion | overflowed => simpa [destroys, allocates] using s.kernel.exists_newObject _ o
  | revoked live destroy | reissued live destroy =>
    simpa [destroys, allocates] using live.exists_bump o
  | @destroyedObject cap live destroy | @destroyedRegion cap live destroy =>
    simpa [destroys, allocates] using s.kernel.exists_remove cap.object o
  | spawnedChild held resolved => simpa [destroys, allocates] using resolved.objectExists_iff o
  | sent data held live queued resolved =>
    simpa [destroys, allocates] using resolved.objectExists_iff o
  | failed call e => cases call <;> simp [destroys, allocates]
  | derived | spawned | receivedNothing | received | read | wrote | inspected | updated | sized
  | reclaimed | recorded | granted | turn => simp [destroys, allocates, System.setProcess]

theorem Effect.existed (h : Effect s call outcome s') {o : ObjectId}
    (hd : destroys o ⟨s, call, outcome, s'⟩ = true) : s.kernel.objectExists o = true := by
  cases h with
  | destroyedObject live destroy | destroyedRegion live destroy =>
    obtain rfl := of_decide_eq_true hd
    exact live.exists
  | failed call e => cases call <;> cases hd
  | _ => cases hd

end Existence

/-- What the registry and the kernel hold of every object the trace created or destroyed. -/
structure Stored (tr : List SystemEntry) (s : System) : Prop where
  below (o : ObjectId) (h : s.kernel.objectExists o = true) : o.val.toNat < objectCount tr
  created (o : ObjectId) (h : s.memory.regions[o]? ≠ none) : ∃ e ∈ tr, createsRegion o e ≠ none
  kept (o : ObjectId) (h : ∃ e ∈ tr, createsRegion o e ≠ none)
    (alive : ∀ e ∈ tr, destroys o e = false) :
    s.kernel.objectExists o = true ∧ s.memory.regions[o]? ≠ none
  gone (o : ObjectId) (h : ∃ e ∈ tr, destroys o e = true) :
    o.val.toNat < objectCount tr ∧ s.kernel.objectExists o = false

namespace Stored
variable {tr : List SystemEntry} {s : System}

theorem start : Stored [] .new := by
  have hnone (o : ObjectId) : System.new.kernel.objectExists o = false := by
    simp [System.new, Kernel.new, Kernel.objectExists]
  refine ⟨?_, ?_, by simp, by simp⟩
  · intro o ho
    rw [hnone] at ho
    cases ho
  · intro o ho
    simp [System.new, RegionRegistry.new] at ho

/-- Bytes of an object that still exists after a call are still there. -/
theorem bytes_kept (s : System) (call : Call) {o : ObjectId} (hbytes : s.memory.regions[o]? ≠ none)
    (hexists : (s.step call).2.kernel.objectExists o = true) :
    (s.step call).2.memory.regions[o]? ≠ none := by
  have hinsert (a : ObjectId) (bytes : Bytes) : (s.memory.regions.insert a bytes)[o]? ≠ none := by
    rw [FiniteMaps.getElem?_insert]
    split
    · exact Option.some_ne_none _
    · exact hbytes
  have heffect := s.step_effect call
  generalize (s.step call).2 = s' at heffect hexists
  generalize (s.step call).1 = outcome at heffect
  cases heffect with
  | newRegion => exact hinsert _ _
  | wrote offset data bytes live | updated f result bytes live => exact hinsert _ _
  | @destroyedRegion cap live destroy =>
    have hne := ((s.kernel.exists_remove cap.object o).mp hexists).2
    change (s.memory.regions.erase cap.object)[o]? ≠ none
    rw [FiniteMaps.getElem?_erase, if_neg hne]
    exact hbytes
  | reclaimed =>
    rw [s.memory.reclaim_getElem? hexists]
    exact hbytes
  | failed | newObject | newChannel | overflowed | derived | revoked | reissued | destroyedObject
  | spawned | spawnedChild | sent | receivedNothing | received | read | inspected | sized | recorded
  | granted | turn => exact hbytes

/-- One call, as long as ids do not wrap. -/
theorem step (h : Stored tr s) (halloc : Allocated tr s) (call : Call)
    (hbound : objectCount (tr ++ [entry System.step s call]) ≤ 2 ^ 64) :
    Stored (tr ++ [entry System.step s call]) (s.step call).2 := by
  have heffect := s.step_effect call
  have hle := Filled.objectCount_le tr (entry System.step s call)
  have hfresh (hallocates : allocates (entry System.step s call) = true) :
      objectCount (tr ++ [entry System.step s call]) = objectCount tr + 1 ∧
        s.kernel.nextId.toNat = objectCount tr := by
    have hcount : objectCount (tr ++ [entry System.step s call]) = objectCount tr + 1 := by
      rw [objectCount_snoc, hallocates]
      rfl
    exact ⟨hcount, halloc.toNat_nextId (by omega)⟩
  refine ⟨?_, ?_, ?_, ?_⟩
  · intro o ho
    rcases (heffect.exists_iff o).mp ho with ⟨hbefore, -⟩ | ⟨hallocates, rfl⟩
    · exact (h.below o hbefore).trans_le hle
    · obtain ⟨hcount, hnext⟩ := hfresh hallocates
      change s.kernel.nextId.toNat < _
      omega
  · intro o ho
    by_cases hcreates : createsRegion o (entry System.step s call) = none
    · have hbefore : s.memory.regions[o]? ≠ none := by
        rcases s.region_effect call o with ⟨-, -, hbytes⟩ | ⟨-, -, hnone⟩ |
          ⟨size, -, hsome, -, -, -, -⟩ | ⟨old, new, -, hold, -, -, -⟩
        · exact hbytes ▸ ho
        · exact absurd hnone ho
        · rw [hcreates] at hsome
          cases hsome
        · rw [show s.memory.regions[o]? = some old from hold]
          exact Option.some_ne_none old
      obtain ⟨e, he, hcreated⟩ := h.created o hbefore
      exact ⟨e, List.mem_append_left _ he, hcreated⟩
    · exact ⟨_, List.mem_append_right _ List.mem_cons_self, hcreates⟩
  · intro o hcreated halive
    have halive_last := halive _ (List.mem_append_right _ List.mem_cons_self)
    have halive_tr : ∀ e ∈ tr, destroys o e = false := fun e he =>
      halive e (List.mem_append_left _ he)
    obtain ⟨e, he, hcreates⟩ := hcreated
    rcases List.mem_append.mp he with he | he
    · obtain ⟨hexists, hbytes⟩ := h.kept o ⟨e, he, hcreates⟩ halive_tr
      have hafter := (heffect.exists_iff o).mpr (Or.inl ⟨hexists, halive_last⟩)
      exact ⟨hafter, bytes_kept s call hbytes hafter⟩
    · obtain rfl := List.mem_singleton.mp he
      rcases s.region_effect call o with ⟨-, hnone, -⟩ | ⟨-, hnone, -⟩ |
        ⟨size, -, -, hallocates, hnext, -, hbytes⟩ | ⟨old, new, hnone, -, -, -, -⟩
      · exact absurd hnone hcreates
      · exact absurd hnone hcreates
      · refine ⟨(heffect.exists_iff o).mpr (Or.inr ⟨hallocates, hnext⟩), ?_⟩
        rw [show (s.step call).2.memory.regions[o]? = _ from hbytes]
        exact Option.some_ne_none _
      · exact absurd hnone hcreates
  · intro o hdestroyed
    -- a destroyed id lies below the count, so no later allocation gives it out again
    have hdead : o.val.toNat < objectCount tr ∧ (s.kernel.objectExists o = true →
        destroys o (entry System.step s call) = true) := by
      obtain ⟨e, he, hd⟩ := hdestroyed
      rcases List.mem_append.mp he with he | he
      · obtain ⟨hlt, hgone⟩ := h.gone o ⟨e, he, hd⟩
        refine ⟨hlt, ?_⟩
        intro hexists
        rw [hgone] at hexists
        cases hexists
      · obtain rfl := List.mem_singleton.mp he
        exact ⟨h.below o (heffect.existed hd), fun _ => hd⟩
    refine ⟨hdead.1.trans_le hle, ?_⟩
    rw [← Bool.not_eq_true]
    intro hexists
    rcases (heffect.exists_iff o).mp hexists with ⟨hbefore, hkept⟩ | ⟨hallocates, rfl⟩
    · have hd := hdead.2 hbefore
      rw [show destroys o (entry System.step s call) = false from hkept] at hd
      cases hd
    · obtain ⟨-, hnext⟩ := hfresh hallocates
      have hlt : s.kernel.nextId.toNat < objectCount tr := hdead.1
      omega

theorem run {allowed : List SystemEntry → Call → Prop} (h : Run System.step allowed .new tr s)
    (hbound : objectCount tr ≤ 2 ^ 64) : Stored tr s := by
  induction h with
  | start => exact start
  | @call tr s run call ok ih =>
    have hearlier := (Filled.objectCount_le tr _).trans hbound
    exact (ih hearlier).step (Allocated.run run hearlier) call hbound

end Stored

end Muaddib
