import Muaddib.ChannelHistories

/-! # Regions are private arrays of bytes

What a region holds is read off the trace: every position holds the byte that the most recent write
or update over it gave, through whatever capability. -/
namespace Muaddib
open LabelledRuns

namespace SystemEntry

/-- The byte a successful write or update gave to position `i` of the region `o`. -/
def gives (o : ObjectId) (i : ℕ) (e : SystemEntry) : Option UInt8 :=
  match e.call, e.outcome with
  | .write cap offset data, .ok _ =>
    if cap.object = o ∧ offset ≤ i then data[i - offset]? else none
  | .update cap f, .ok _ =>
    if cap.object = o then (f.run (e.before.memory.regions[o]?.getD [])).2[i]? else none
  | _, _ => none

/-- The size of the region `o`, if the call created it. -/
def createsRegion (o : ObjectId) (e : SystemEntry) : Option ℕ :=
  match e.call, e.outcome with
  | .newRegion size, .ok (.capability cap) => if cap.object = o then some size else none
  | _, _ => none

end SystemEntry

open SystemEntry

/-- The byte that was last given to position `i` of the region `o`, zero if none was. -/
def lastGiven (o : ObjectId) (tr : List SystemEntry) (i : ℕ) : UInt8 :=
  tr.foldl (fun byte e => (e.gives o i).getD byte) 0

/-- The size the region `o` was created with. -/
def createdSize (o : ObjectId) (tr : List SystemEntry) : Option ℕ := tr.findSome? (createsRegion o)

theorem lastGiven_snoc (o : ObjectId) (tr : List SystemEntry) (e : SystemEntry) (i : ℕ) :
    lastGiven o (tr ++ [e]) i = (e.gives o i).getD (lastGiven o tr i) := by
  simp [lastGiven]

theorem createdSize_snoc (o : ObjectId) (tr : List SystemEntry) (e : SystemEntry) :
    createdSize o (tr ++ [e]) = (createdSize o tr).or (e.createsRegion o) := by
  simp [createdSize, List.findSome?_append]

inductive RegionEffect (o : ObjectId) (e : SystemEntry) : Prop where
  | kept (gives : ∀ i, e.gives o i = none) (creates : e.createsRegion o = none)
      (bytes : e.after.memory.regions[o]? = e.before.memory.regions[o]?)
  | dropped (gives : ∀ i, e.gives o i = none) (creates : e.createsRegion o = none)
      (bytes : e.after.memory.regions[o]? = none)
  | created (size : ℕ) (gives : ∀ i, e.gives o i = none)
      (creates : e.createsRegion o = some size) (allocates : e.allocates = true)
      (next : o = ⟨e.before.kernel.nextId⟩) (fits : size < 2 ^ 63)
      (bytes : e.after.memory.regions[o]? = some (List.replicate size 0))
  | rewritten (old new : Bytes) (creates : e.createsRegion o = none)
      (before : e.before.memory.regions[o]? = some old)
      (after : e.after.memory.regions[o]? = some new) (length : new.length = old.length)
      (bytes : ∀ i, i < old.length → new[i]? = (e.gives o i).or old[i]?)

section Effects
variable {s s' : System} {call : Call} {outcome : Outcome}

private theorem write_region (s : System) (cap : Capability) (offset : ℕ) (data : Bytes)
    (o : ObjectId) : RegionEffect o (entry System.step s (.write cap offset data)) := by
  rcases s.memory.write_cases s.kernel cap offset data with ⟨e, he⟩ | ⟨bytes, -, hm, hfits, hok⟩
  · simp only [entry, System.step, he, stopping]
    exact .kept (fun i => rfl) rfl rfl
  · simp only [entry, System.step, hok, stopping]
    by_cases ho : cap.object = o
    · subst o
      refine .rewritten bytes (RegionRegistry.overwrite bytes offset data) rfl hm ?_
        (RegionRegistry.length_overwrite _ _ _ hfits) fun i hi => ?_
      · exact (FiniteMaps.getElem?_insert ..).trans (if_pos rfl)
      · rw [RegionRegistry.getElem?_overwrite _ _ _ hfits]
        simp only [gives, true_and]
        by_cases hle : offset ≤ i
        · rcases Nat.lt_or_ge i (offset + data.length) with hlt | hge
          · rw [if_pos ⟨hle, hlt⟩, if_pos hle, List.getElem?_eq_getElem (by omega), Option.some_or]
          · have hnone : data[i - offset]? = none := List.getElem?_eq_none (by omega)
            rw [if_neg (by omega), if_pos hle, hnone, Option.none_or]
        · rw [if_neg (by omega), if_neg hle, Option.none_or]
    · refine .kept (fun i => ?_) rfl ((FiniteMaps.getElem?_insert ..).trans (if_neg ho))
      simp only [gives, ho, false_and, if_false]

private theorem update_region (s : System) (cap : Capability) (f : SliceUpdate Bytes)
    (o : ObjectId) : RegionEffect o (entry System.step s (.update cap f)) := by
  rcases s.memory.update_cases s.kernel cap f with ⟨e, he⟩ | ⟨bytes, -, hm, hok⟩
  · simp only [entry, System.step, he, returning]
    exact .kept (fun i => rfl) rfl rfl
  · simp only [entry, System.step, hok, returning]
    by_cases ho : cap.object = o
    · subst o
      refine .rewritten bytes (f.run bytes).2 rfl hm ?_ (f.length_eq bytes) fun i hi => ?_
      · exact (FiniteMaps.getElem?_insert ..).trans (if_pos rfl)
      · simp only [gives, hm, Option.getD_some, if_true]
        rw [List.getElem?_eq_getElem (by rw [f.length_eq]; exact hi), Option.some_or]
    · refine .kept (fun i => ?_) rfl ((FiniteMaps.getElem?_insert ..).trans (if_neg ho))
      simp only [gives, ho, if_false]

private theorem other_region (h : Effect s call outcome s')
    (hwrite : ∀ cap offset data, call ≠ .write cap offset data)
    (hupdate : ∀ cap f, call ≠ .update cap f) (o : ObjectId) :
    RegionEffect o ⟨s, call, outcome, s'⟩ := by
  cases h with
  | failed call e => cases call <;> exact .kept (fun i => rfl) rfl rfl
  | @newRegion size fits =>
    by_cases ho : (⟨s.kernel.nextId⟩ : ObjectId) = o
    · exact .created size (fun i => rfl) (if_pos ho) rfl ho.symm fits
        ((FiniteMaps.getElem?_insert ..).trans (if_pos ho))
    · exact .kept (fun i => rfl) (if_neg ho) ((FiniteMaps.getElem?_insert ..).trans (if_neg ho))
  | wrote offset data bytes live => exact absurd rfl (hwrite _ _ _)
  | updated f result bytes live => exact absurd rfl (hupdate _ _)
  | @destroyedRegion cap live destroy =>
    by_cases ho : cap.object = o
    · exact .dropped (fun i => rfl) rfl ((FiniteMaps.getElem?_erase ..).trans (if_pos ho))
    · exact .kept (fun i => rfl) rfl ((FiniteMaps.getElem?_erase ..).trans (if_neg ho))
  | reclaimed =>
    have hfilter : (s.memory.reclaim s.kernel).2.regions[o]? =
        s.memory.regions[o]?.filter fun _ => s.kernel.objectExists o :=
      Std.ExtTreeMap.getElem?_filter'
    cases hexists : s.kernel.objectExists o with
    | true =>
      refine .kept (fun i => rfl) rfl (hfilter.trans ?_)
      rw [hexists]
      cases s.memory.regions[o]? <;> rfl
    | false =>
      refine .dropped (fun i => rfl) rfl (hfilter.trans ?_)
      rw [hexists]
      cases s.memory.regions[o]? <;> rfl
  | newObject | newChannel | overflowed | derived | revoked | reissued | destroyedObject | spawned
  | spawnedChild | sent | receivedNothing | received | read | inspected | sized | recorded | granted
  | turn => exact .kept (fun i => rfl) rfl rfl

/-- Every call creates the region, drops it, rewrites it by a write or an update of the same length,
or leaves it alone. -/
theorem System.region_effect (s : System) (call : Call) (o : ObjectId) :
    RegionEffect o (entry System.step s call) := by
  by_cases hwrite : ∃ cap offset data, call = .write cap offset data
  · obtain ⟨cap, offset, data, rfl⟩ := hwrite
    exact write_region s cap offset data o
  · by_cases hupdate : ∃ cap f, call = .update cap f
    · obtain ⟨cap, f, rfl⟩ := hupdate
      exact update_region s cap f o
    · exact other_region (s.step_effect call)
        (fun cap offset data heq => hwrite ⟨cap, offset, data, heq⟩)
        (fun cap f heq => hupdate ⟨cap, f, heq⟩) o

end Effects

/-- The regions hold what the trace gave them, and ids that were not given out have no history. -/
structure Filled (tr : List SystemEntry) (s : System) : Prop where
  below : ∀ (o : ObjectId) (bytes : Bytes), s.memory.regions[o]? = some bytes →
    o.val.toNat < objectCount tr
  size : ∀ (o : ObjectId) (bytes : Bytes), s.memory.regions[o]? = some bytes →
    createdSize o tr = some bytes.length
  bytes : ∀ (o : ObjectId) (bytes : Bytes), s.memory.regions[o]? = some bytes →
    ∀ i, i < bytes.length → bytes[i]? = some (lastGiven o tr i)
  small : ∀ (o : ObjectId) (size : ℕ), createdSize o tr = some size → size < 2 ^ 63
  unused : ∀ o : ObjectId, objectCount tr ≤ o.val.toNat →
    createdSize o tr = none ∧ ∀ i, lastGiven o tr i = 0

namespace Filled
variable {tr : List SystemEntry} {s : System}

theorem start : Filled [] .new := by
  refine ⟨?_, ?_, ?_, ?_, fun _ _ => ⟨rfl, fun _ => rfl⟩⟩
  all_goals
    intro o bytes ho
    simp [System.new, RegionRegistry.new, createdSize] at ho

theorem objectCount_le (tr : List SystemEntry) (e : SystemEntry) :
    objectCount tr ≤ objectCount (tr ++ [e]) := by
  rw [objectCount_snoc]
  exact Nat.le_add_right ..

/-- One call. A region is created under an id without a history, as long as ids do not wrap. -/
theorem step (h : Filled tr s) (halloc : Allocated tr s) (call : Call)
    (hbound : objectCount (tr ++ [entry System.step s call]) ≤ 2 ^ 64) :
    Filled (tr ++ [entry System.step s call]) (s.step call).2 := by
  have hle := objectCount_le tr (entry System.step s call)
  -- the region of one object: below the count, of its created size, with the bytes last given
  have hregion : ∀ (o : ObjectId) (bytes : Bytes), (s.step call).2.memory.regions[o]? = some bytes →
      o.val.toNat < objectCount (tr ++ [entry System.step s call]) ∧
      createdSize o (tr ++ [entry System.step s call]) = some bytes.length ∧
      ∀ i, i < bytes.length →
        bytes[i]? = some (lastGiven o (tr ++ [entry System.step s call]) i) := by
    intro o bytes ho
    rcases s.region_effect call o with ⟨hgives, hcreates, hbytes⟩ | ⟨-, -, hnone⟩ |
      ⟨size, hgives, hcreates, hallocates, hnext, -, hbytes⟩ |
      ⟨old, new, hcreates, hbefore, hafter, hlen, hbytes⟩
    · have hold := hbytes.symm.trans ho
      refine ⟨(h.below o bytes hold).trans_le hle, ?_, fun i hi => ?_⟩
      · rw [createdSize_snoc, h.size o bytes hold, Option.some_or]
      · rw [lastGiven_snoc, hgives, Option.getD_none]
        exact h.bytes o bytes hold i hi
    · have hempty := hnone.symm.trans ho
      cases hempty
    · obtain rfl := Option.some.inj (hbytes.symm.trans ho)
      have hcount : objectCount (tr ++ [entry System.step s call]) = objectCount tr + 1 := by
        rw [objectCount_snoc, hallocates]
        rfl
      have hval : o.val.toNat = objectCount tr := by
        rw [hnext]
        exact halloc.toNat_nextId (by omega)
      obtain ⟨hnew, hzero⟩ := h.unused o hval.ge
      refine ⟨by omega, ?_, fun i hi => ?_⟩
      · rw [createdSize_snoc, hnew, Option.none_or, hcreates, List.length_replicate]
      · rw [lastGiven_snoc, hgives, Option.getD_none, hzero]
        rw [List.length_replicate] at hi
        exact List.getElem?_replicate_of_lt hi
    · obtain rfl := Option.some.inj (hafter.symm.trans ho)
      refine ⟨(h.below o old hbefore).trans_le hle, ?_, fun i hi => ?_⟩
      · rw [createdSize_snoc, h.size o old hbefore, Option.some_or, hlen]
      · rw [hlen] at hi
        rw [lastGiven_snoc, hbytes i hi, h.bytes o old hbefore i hi]
        cases gives o i (entry System.step s call) <;> rfl
  refine ⟨fun o bytes ho => (hregion o bytes ho).1, fun o bytes ho => (hregion o bytes ho).2.1,
    fun o bytes ho => (hregion o bytes ho).2.2, fun o size ho => ?_, fun o ho => ?_⟩
  · rw [createdSize_snoc, Option.or_eq_some_iff] at ho
    rcases ho with ho | ⟨-, ho⟩
    · exact h.small o size ho
    · rcases s.region_effect call o with ⟨-, hnone, -⟩ | ⟨-, hnone, -⟩ |
        ⟨size', -, hsome, -, -, fits, -⟩ | ⟨-, -, hnone, -, -, -, -⟩
      · cases hnone.symm.trans ho
      · cases hnone.symm.trans ho
      · obtain rfl := Option.some.inj (hsome.symm.trans ho)
        exact fits
      · cases hnone.symm.trans ho
  obtain ⟨hnone, hzero⟩ := h.unused o (hle.trans ho)
  have hkept : createsRegion o (entry System.step s call) = none ∧
      ∀ i, gives o i (entry System.step s call) = none := by
    rcases s.region_effect call o with ⟨hgives, hcreates, -⟩ | ⟨hgives, hcreates, -⟩ |
      ⟨size, -, -, hallocates, hnext, -, -⟩ | ⟨old, new, -, hbefore, -, -, -⟩
    · exact ⟨hcreates, hgives⟩
    · exact ⟨hcreates, hgives⟩
    · have hcount : objectCount (tr ++ [entry System.step s call]) = objectCount tr + 1 := by
        rw [objectCount_snoc, hallocates]
        rfl
      have hval : o.val.toNat = objectCount tr := by
        rw [hnext]
        exact halloc.toNat_nextId (by omega)
      omega
    · have hlt := h.below o old hbefore
      omega
  refine ⟨?_, fun i => ?_⟩
  · rw [createdSize_snoc, hnone, hkept.1]
    rfl
  · rw [lastGiven_snoc, hkept.2, hzero]
    rfl

theorem run {allowed : List SystemEntry → Call → Prop} (h : Run System.step allowed .new tr s)
    (hbound : objectCount tr ≤ 2 ^ 64) : Filled tr s := by
  induction h with
  | start => exact start
  | @call tr s run call ok ih =>
    have hearlier := (objectCount_le tr _).trans hbound
    exact (ih hearlier).step (Allocated.run run hearlier) call hbound

end Filled

namespace RegionRegistry
variable {reg : RegionRegistry} {k : Kernel} {cap : Capability} {offset len : ℕ}

/-- A read goes through exactly within the bytes of a region that a live capability may read. -/
theorem read_eq_ok_iff {region : Bytes} (hm : reg.regions[cap.object]? = some region)
    (hsize : region.length < 2 ^ 64) {bytes : Bytes} : reg.read k cap offset len = .ok bytes ↔
      k.Live cap ∧ cap.rights.contains .READ = true ∧ offset + len ≤ region.length ∧
        bytes = slice region offset (offset + len) := by
  have hadd : offset + len ≤ region.length → checkedAdd offset len = some (offset + len) :=
    fun hle => if_pos (by omega)
  rcases k.check_cases cap .READ with ⟨hc, hl, hr⟩ | ⟨e, he⟩
  · by_cases hle : offset + len ≤ region.length
    · simp [read, checkedRange, hc, hm, hadd hle, hle, hl, hr, eq_comm]
    · rcases reg.read_cases k cap offset len with ⟨e, he⟩ | ⟨bytes', -, hm', hle', -⟩
      · simp [he, hle]
      · rw [hm, Option.some.injEq] at hm'
        exact absurd (hm' ▸ hle') hle
  · have hn : ¬(k.Live cap ∧ cap.rights.contains .READ = true) := by
      rw [← Kernel.check_eq_ok_iff, he]
      intro hok
      cases hok
    simp only [read, checkedRange, he, reduceCtorEq, false_iff]
    exact fun h => hn ⟨h.1, h.2.1⟩

theorem read_ne_panic (message : String) : reg.read k cap offset len ≠ .error (.panic message) := by
  rcases reg.read_cases k cap offset len with ⟨e, he⟩ | ⟨bytes, -, -, -, hok⟩
  · rw [he]
    nofun
  · rw [hok]
    nofun

theorem region_of_read {bytes : Bytes} (h : reg.read k cap offset len = .ok bytes) :
    ∃ region, reg.regions[cap.object]? = some region := by
  rcases reg.read_cases k cap offset len with ⟨e, he⟩ | ⟨region, -, hm, -, -⟩
  · rw [he] at h
    cases h
  · exact ⟨region, hm⟩

theorem inspect_eq_read {R : Type} {region : Bytes} (hm : reg.regions[cap.object]? = some region)
    (hsize : region.length < 2 ^ 64) (f : Bytes → R) :
    (∀ r, reg.inspect k cap f = .ok r ↔
      ∃ bytes, reg.read k cap 0 region.length = .ok bytes ∧ r = f bytes) ∧
    ∀ e, reg.inspect k cap f = .error e ↔ reg.read k cap 0 region.length = .error (.err e) := by
  have hadd : checkedAdd 0 region.length = some region.length := by
    rw [checkedAdd, Nat.zero_add, if_pos hsize]
  have hall : slice region 0 region.length = region := by simp [slice]
  cases hc : k.check cap .READ with
  | error e => simp [inspect, read, checkedRange, hc]
  | ok u => simp [inspect, read, checkedRange, hc, hm, hadd, hall, eq_comm]

theorem length_slice {region : Bytes} (h : offset + len ≤ region.length) :
    (slice region offset (offset + len)).length = len := by
  simp only [slice, List.length_take, List.length_drop]
  omega

theorem getElem?_slice (region : Bytes) {i : ℕ} (hi : i < len) :
    (slice region offset (offset + len))[i]? = region[offset + i]? := by
  rw [slice, List.getElem?_take_of_lt (by omega), List.getElem?_drop]

end RegionRegistry

end Muaddib
