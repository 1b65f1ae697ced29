import Muaddib.RegionLifetimes

/-! # Regions behave as private arrays of bytes

Which regions exist, how large they are and what they hold is read off the trace alone: the accesses
agree with it in every state of a run. -/
namespace Muaddib
open LabelledRuns SystemEntry

/-- A call on a region, successful or not, leaves every other region as it is, and a call that fails
leaves all. -/
theorem Effect.region_frame {s s' : System} {call : Call} {outcome : Outcome}
    (h : Effect s call outcome s') {cap : Capability} (hcap : call.regionAccess = some cap)
    {o : ObjectId} (hne : cap.object ≠ o ∨ ∃ e, outcome = .error e) :
    s'.memory.regions[o]? = s.memory.regions[o]? := by
  cases h with
  | failed => rfl
  | wrote offset data bytes live | updated f result bytes live =>
    obtain rfl := Option.some.inj hcap
    rcases hne with hne | ⟨e, he⟩
    · exact (FiniteMaps.getElem?_insert ..).trans (if_neg hne)
    · cases he
  | destroyedRegion live destroy =>
    obtain rfl := Option.some.inj hcap
    rcases hne with hne | ⟨e, he⟩
    · exact (FiniteMaps.getElem?_erase ..).trans (if_neg hne)
    · cases he
  | read | inspected | sized => rfl
  | _ => cases hcap

/-- A call on no region keeps the bytes of every region that exists. -/
theorem Effect.region_kept {s s' : System} {call : Call} {outcome : Outcome}
    (h : Effect s call outcome s') (hnone : call.regionAccess = none) {o : ObjectId}
    (hreclaim : call = .reclaim → s.kernel.objectExists o = true)
    (ho : o ≠ ⟨s.kernel.nextId⟩ ∨ ∀ size, call ≠ .newRegion size) :
    s'.memory.regions[o]? = s.memory.regions[o]? := by
  cases h with
  | @newRegion size =>
    rcases ho with ho | ho
    · exact (FiniteMaps.getElem?_insert ..).trans (if_neg (Ne.symm ho))
    · exact absurd rfl (ho size)
  | reclaimed => exact s.memory.reclaim_getElem? (hreclaim rfl)
  | failed | newObject | newChannel | overflowed | derived | revoked | reissued | destroyedObject
  | spawned | spawnedChild | sent | receivedNothing | received | read | inspected | sized | recorded
  | granted | turn => rfl
  | _ => cases hnone

/-- The region was created with the given size, and was not destroyed. -/
def IsRegion (tr : List SystemEntry) (o : ObjectId) (size : ℕ) : Prop :=
  createdSize o tr = some size ∧ ∀ e ∈ tr, e.destroys o = false

/-- Reads see what was last given to each position, and go through exactly within the regions that
exist. -/
structure ActsAsArrays (tr : List SystemEntry) (s : System) : Prop where
  read_ok : ∀ cap offset len, (∃ bytes, s.memory.read s.kernel cap offset len = .ok bytes) ↔
    s.kernel.Live cap ∧ cap.rights.contains .READ = true ∧
      ∃ size, IsRegion tr cap.object size ∧ offset + len ≤ size
  read_safe : ∀ cap offset len message,
    s.memory.read s.kernel cap offset len ≠ .error (.panic message)
  read_bytes : ∀ cap offset len bytes, s.memory.read s.kernel cap offset len = .ok bytes →
    bytes.length = len ∧ ∀ i, i < len → bytes[i]? = some (lastGiven cap.object tr (offset + i))
  inspect : ∀ (R : Type) (cap : Capability) (f : Bytes → R) (size : ℕ), IsRegion tr cap.object size →
    (∀ r, s.memory.inspect s.kernel cap f = .ok r ↔
      ∃ bytes, s.memory.read s.kernel cap 0 size = .ok bytes ∧ r = f bytes) ∧
    ∀ e, s.memory.inspect s.kernel cap f = .error e ↔
      s.memory.read s.kernel cap 0 size = .error (.err e)
  size : ∀ cap n, s.memory.size s.kernel cap = .ok n ↔ s.kernel.Live cap ∧ IsRegion tr cap.object n

/-- The call keeps the sizes of regions and the bytes of every region that exists, unless it is a
write or an update of that region that goes through, and it drops no region that exists after it. -/
structure KeepsArrays (e : SystemEntry) : Prop where
  size : ∀ (o : ObjectId) (region region' : Bytes), e.before.memory.regions[o]? = some region →
    e.after.memory.regions[o]? = some region' → region'.length = region.length
  stored : ∀ o : ObjectId, e.before.memory.regions[o]? ≠ none →
    e.after.kernel.objectExists o = true → e.after.memory.regions[o]? ≠ none
  access : ∀ (cap : Capability) (o : ObjectId), e.call.regionAccess = some cap →
    cap.object ≠ o ∨ (∃ error, e.outcome = .error error) →
    e.after.memory.regions[o]? = e.before.memory.regions[o]?
  others : ∀ (o : ObjectId) (region : Bytes), e.call.regionAccess = none →
    (e.call = .reclaim → e.before.kernel.objectExists o = true) →
    e.before.memory.regions[o]? = some region → e.after.memory.regions[o]? = some region

section Arrays
variable {allowed : List SystemEntry → Call → Prop} {tr : List SystemEntry} {s : System}

/-- A region that exists is stored with the size it was created with. -/
theorem IsRegion.stored {o : ObjectId} {size : ℕ} (h : Run System.step allowed .new tr s)
    (hbound : objectCount tr ≤ 2 ^ 64) (hregion : IsRegion tr o size) :
    ∃ region : Bytes, s.memory.regions[o]? = some region ∧ region.length = size := by
  obtain ⟨hcreated, halive⟩ := hregion
  have hcreates : ∃ e ∈ tr, createsRegion o e ≠ none := by
    obtain ⟨e, he, hsize⟩ := List.exists_of_findSome?_eq_some hcreated
    exact ⟨e, he, by rw [hsize]; exact Option.some_ne_none size⟩
  obtain ⟨-, hbytes⟩ := (Stored.run h hbound).kept o hcreates halive
  obtain ⟨region, ho⟩ := Option.ne_none_iff_exists'.mp hbytes
  have hlength := ((Filled.run h hbound).size o region ho).symm.trans hcreated
  exact ⟨region, ho, Option.some.inj hlength⟩

/-- A region that a live capability names and that is stored exists. -/
theorem isRegion_of_live {cap : Capability} {region : Bytes} (h : Run System.step allowed .new tr s)
    (hbound : objectCount tr ≤ 2 ^ 64) (hlive : s.kernel.Live cap)
    (hm : s.memory.regions[cap.object]? = some region) : IsRegion tr cap.object region.length := by
  refine ⟨(Filled.run h hbound).size cap.object region hm, fun e he => ?_⟩
  rw [← Bool.not_eq_true]
  intro hdestroys
  have hgone := ((Stored.run h hbound).gone cap.object ⟨e, he, hdestroys⟩).2
  rw [hlive.exists] at hgone
  cases hgone

/-- In every state of a run that allocates at most `2 ^ 64` objects, regions are private arrays of
bytes. -/
theorem Run.acts_as_arrays (h : Run System.step allowed .new tr s)
    (hbound : objectCount tr ≤ 2 ^ 64) : ActsAsArrays tr s := by
  have hfilled := Filled.run h hbound
  have hsmall (o : ObjectId) (region : Bytes) (ho : s.memory.regions[o]? = some region) :
      region.length < 2 ^ 64 :=
    (hfilled.small o _ (hfilled.size o region ho)).trans (by decide)
  refine ⟨fun cap offset len => ⟨?_, ?_⟩, fun cap offset len => RegionRegistry.read_ne_panic,
    fun cap offset len bytes hok => ?_, fun R cap f size hregion => ?_, fun cap n => ⟨?_, ?_⟩⟩
  · rintro ⟨bytes, hok⟩
    obtain ⟨region, hm⟩ := RegionRegistry.region_of_read hok
    obtain ⟨hl, hr, hle, -⟩ := (RegionRegistry.read_eq_ok_iff hm (hsmall _ _ hm)).mp hok
    exact ⟨hl, hr, region.length, isRegion_of_live h hbound hl hm, hle⟩
  · rintro ⟨hl, hr, size, hregion, hle⟩
    obtain ⟨region, hm, rfl⟩ := hregion.stored h hbound
    exact ⟨_, (RegionRegistry.read_eq_ok_iff hm (hsmall _ _ hm)).mpr ⟨hl, hr, hle, rfl⟩⟩
  · obtain ⟨region, hm⟩ := RegionRegistry.region_of_read hok
    obtain ⟨-, -, hle, rfl⟩ := (RegionRegistry.read_eq_ok_iff hm (hsmall _ _ hm)).mp hok
    refine ⟨RegionRegistry.length_slice hle, fun i hi => ?_⟩
    rw [RegionRegistry.getElem?_slice region hi]
    exact hfilled.bytes cap.object region hm (offset + i) (by omega)
  · obtain ⟨region, hm, rfl⟩ := hregion.stored h hbound
    exact RegionRegistry.inspect_eq_read hm (hsmall _ _ hm) f
  · intro hok
    rcases s.memory.size_cases s.kernel cap with ⟨e, he⟩ | ⟨region, hc, hm, hsize⟩
    · cases he.symm.trans hok
    · have hl := Kernel.check_NONE.mp hc
      obtain rfl := Except.ok.inj (hsize.symm.trans hok)
      exact ⟨hl, isRegion_of_live h hbound hl hm⟩
  · rintro ⟨hl, hregion⟩
    obtain ⟨region, hm, rfl⟩ := hregion.stored h hbound
    simp [RegionRegistry.size, RegionRegistry.checkedRange, Kernel.check_NONE.mpr hl, hm, checkedAdd]

theorem Run.keeps_arrays (h : Run System.step allowed .new tr s) (hbound : objectCount tr ≤ 2 ^ 64)
    {e : SystemEntry} (he : e ∈ tr) : KeepsArrays e := by
  obtain ⟨earlier, later, rfl⟩ := List.append_of_mem he
  obtain ⟨hrun, -, hentry, hnext, -⟩ := h.split_cons
  have hcount : objectCount (earlier ++ [e]) ≤ 2 ^ 64 := by
    rw [List.append_cons, objectCount, List.countP_append] at hbound
    exact (Nat.le_add_right ..).trans hbound
  have hearlier := (Filled.objectCount_le earlier e).trans hcount
  have hbefore := Filled.run hrun hearlier
  have heffect := e.before.step_effect e.call
  have hafter : (e.before.step e.call).2 = e.after := (congrArg Entry.after hentry).symm
  have houtcome : (e.before.step e.call).1 = e.outcome := (congrArg Entry.outcome hentry).symm
  have hkept (o : ObjectId) := Stored.bytes_kept (o := o) e.before e.call
  rw [hafter, houtcome] at heffect
  rw [hafter] at hkept
  refine ⟨fun o region region' ho ho' => ?_, hkept, fun cap o hcap hne =>
    heffect.region_frame hcap hne, fun o region hnone hreclaim ho => ?_⟩
  · have hold := hbefore.size o region ho
    have hnew := (Filled.run hnext hcount).size o region' ho'
    rw [createdSize_snoc, hold, Option.some_or, Option.some.injEq] at hnew
    exact hnew.symm
  · rw [← ho]
    apply heffect.region_kept hnone hreclaim
    by_cases hallocates : e.allocates = true
    · refine Or.inl fun heq => ?_
      have hone : objectCount (earlier ++ [e]) = objectCount earlier + 1 := by
        rw [objectCount_snoc, if_pos hallocates]
      have hlt := hbefore.below o region ho
      have hnext := (Allocated.run hrun hearlier).toNat_nextId (by omega)
      rw [heq, ← hnext] at hlt
      exact Nat.lt_irrefl _ hlt
    · refine Or.inr fun size hsize => hallocates ?_
      rw [hentry, hsize]
      exact e.before.allocates_newRegion size

/-- In a run that allocates at most `2 ^ 64` objects, regions are private arrays of bytes, and every
call keeps them so. -/
theorem regions_act_as_arrays (h : Run System.step allowed .new tr s)
    (hbound : objectCount tr ≤ 2 ^ 64) : ActsAsArrays tr s ∧ ∀ e ∈ tr, KeepsArrays e :=
  ⟨Run.acts_as_arrays h hbound, fun _ he => Run.keeps_arrays h hbound he⟩

end Arrays

/-- The bytes of a region of four survive a move to a new owner. -/
theorem regions_act_as_arrays_reissue :
    let cap : Capability := ⟨⟨0⟩, .READ ||| .WRITE ||| .GRANT ||| .DESTROY, 0⟩
    let calls : List Call := [.newRegion 4, .write cap 1 [7, 8], .reissue cap]
    ActsAsArrays (trace System.step .new calls) (final System.step .new calls) ∧
      lastGiven ⟨0⟩ (trace System.step .new calls) 2 = 8 := by
  intro cap calls
  have hrun : Run System.step (fun _ _ => True) .new (trace System.step .new calls)
      (final System.step .new calls) := Run.of_calls fun _ _ => trivial
  have harrays := regions_act_as_arrays hrun (by decide +kernel)
  exact ⟨harrays.1, by decide +kernel⟩

private theorem reads_zero {s : System} (hnext : s.kernel.nextId = 0) :
    (s.step (.newRegion 1)).2.memory.read (s.step (.newRegion 1)).2.kernel ⟨⟨0⟩, .READ, 0⟩ 0 1 =
      .ok [0] := by
  have hlive : (s.step (.newRegion 1)).2.kernel.Live ⟨⟨0⟩, .READ, 0⟩ := by
    refine (Kernel.newObject_epochs s.kernel (.READ ||| .WRITE ||| .GRANT ||| .DESTROY) ⟨0⟩).trans ?_
    rw [hnext, if_pos rfl]
  have hregion : (s.step (.newRegion 1)).2.memory.regions[(⟨0⟩ : ObjectId)]? = some [0] := by
    refine (FiniteMaps.getElem?_insert ..).trans ?_
    change (if (⟨s.kernel.nextId⟩ : ObjectId) = _ then _ else _) = _
    rw [hnext, if_pos rfl]
    rfl
  exact (RegionRegistry.read_eq_ok_iff hregion (by decide)).mpr
    ⟨hlive, Rights.contains_refl .READ, by decide, rfl⟩

private theorem region_replaced (k : ℕ) (hk : 1 + UInt64.ofNat k = 0) :
    ∃ (tr : List SystemEntry) (s : System), Run System.step (fun _ _ => True) .new tr s ∧
      s.memory.read s.kernel ⟨⟨0⟩, .READ, 0⟩ 0 1 = .ok [0] ∧ lastGiven ⟨0⟩ tr 0 = 7 := by
  let first : List Call := [.newRegion 1, .write ⟨⟨0⟩, .WRITE, 0⟩ 0 [7]]
  let s₁ := final System.step .new first
  let s₂ := final System.step s₁ (List.replicate k (.newObject .NONE))
  let calls := first ++ (List.replicate k (.newObject .NONE) ++ [.newRegion 1])
  obtain ⟨kernel, hkernel, hnext⟩ := s₁.final_newObjects k
  have hzero : s₂.kernel.nextId = 0 := (congrArg (·.kernel.nextId) hkernel).trans (hnext.trans hk)
  have hrun : Run System.step (fun _ _ => True) .new (trace System.step .new calls)
      (final System.step .new calls) := Run.of_calls fun _ _ => trivial
  have hfinal : final System.step .new calls = (s₂.step (.newRegion 1)).2 := by
    rw [final_append, final_append]
    rfl
  refine ⟨_, _, hrun, ?_, ?_⟩
  · rw [hfinal]
    exact reads_zero hzero
  · have hfirst : lastGiven ⟨0⟩ (trace System.step .new first) 0 = 7 := by decide +kernel
    have hlast : gives ⟨0⟩ 0 (entry System.step s₂ (.newRegion 1)) = none := rfl
    rw [lastGiven, trace_append, trace_append, List.foldl_append, List.foldl_append,
      foldl_trace_replicate fun _ _ => rfl]
    change (gives ⟨0⟩ 0 (entry System.step s₂ (.newRegion 1))).getD
      (lastGiven ⟨0⟩ (trace System.step .new first) 0) = 7
    rw [hlast, Option.getD_none, hfirst]

/-- After `2 ^ 64` allocations the id of a region is given out again: a read through the first
capability no longer sees the last write. -/
theorem writes_lost_when_ids_wrap :
    ¬∀ (tr : List SystemEntry) (s : System), Run System.step (fun _ _ => True) .new tr s →
      ∀ cap offset len bytes, s.memory.read s.kernel cap offset len = .ok bytes →
        ∀ i, i < len → bytes[i]? = some (lastGiven cap.object tr (offset + i)) := by
  intro hclaim
  obtain ⟨tr, s, hrun, hread, hgiven⟩ := region_replaced (2 ^ 64 - 1) (by decide +kernel)
  have hbyte := hclaim tr s hrun _ 0 1 _ hread 0 Nat.zero_lt_one
  rw [Nat.zero_add, hgiven] at hbyte
  cases hbyte

end Muaddib
