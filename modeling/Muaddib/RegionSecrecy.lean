import Muaddib.SystemHistories

/-! # Nobody without `READ` learns a byte of a region

Two systems that differ in the bytes of one region only. A client that has no live `READ` capability
for it cannot tell them apart, whatever it calls and however it chooses its calls. -/
namespace Muaddib
open Std (ExtTreeMap)

/-- The same regions with the same sizes, and with the same bytes except at `o`. -/
structure AlikeExcept (o : ObjectId) (m m' : ExtTreeMap ObjectId Bytes) : Prop where
  others : ∀ a, a ≠ o → m'[a]? = m[a]?
  size : m'[o]?.map List.length = m[o]?.map List.length

namespace AlikeExcept
variable {o : ObjectId} {m m' : ExtTreeMap ObjectId Bytes}

theorem lengths (h : AlikeExcept o m m') (a : ObjectId) :
    m'[a]?.map List.length = m[a]?.map List.length := by
  by_cases ha : a = o
  · rw [ha]
    exact h.size
  · rw [h.others a ha]

theorem insert (h : AlikeExcept o m m') (a : ObjectId) {bytes bytes' : Bytes}
    (hlen : bytes'.length = bytes.length) (hsame : a ≠ o → bytes' = bytes) :
    AlikeExcept o (m.insert a bytes) (m'.insert a bytes') := by
  refine ⟨fun b hb => ?_, ?_⟩
  · rw [FiniteMaps.getElem?_insert, FiniteMaps.getElem?_insert]
    split
    · next hab =>
      rw [hsame]
      rw [hab]
      exact hb
    · exact h.others b hb
  · rw [FiniteMaps.getElem?_insert, FiniteMaps.getElem?_insert]
    split
    · rw [Option.map_some, Option.map_some, hlen]
    · exact h.size

theorem erase (h : AlikeExcept o m m') (a : ObjectId) : AlikeExcept o (m.erase a) (m'.erase a) := by
  refine ⟨fun b hb => ?_, ?_⟩
  · rw [FiniteMaps.getElem?_erase, FiniteMaps.getElem?_erase, h.others b hb]
  · rw [FiniteMaps.getElem?_erase, FiniteMaps.getElem?_erase]
    split
    · rfl
    · exact h.size

theorem filter (h : AlikeExcept o m m') (keep : ObjectId → Bool) :
    AlikeExcept o (m.filter fun a _ => keep a) (m'.filter fun a _ => keep a) := by
  refine ⟨fun b hb => ?_, ?_⟩
  · rw [ExtTreeMap.getElem?_filter', ExtTreeMap.getElem?_filter', h.others b hb]
  · have hlen := h.size
    rw [ExtTreeMap.getElem?_filter', ExtTreeMap.getElem?_filter']
    cases hm : m[o]? with
    | none =>
      rw [hm, Option.map_none, Option.map_eq_none_iff] at hlen
      rw [hlen]
    | some bytes =>
      rw [hm] at hlen
      obtain ⟨bytes', hm', hlen⟩ := Option.map_eq_some_iff.mp hlen
      rw [hm']
      cases keep o
      · simp [Option.filter]
      · simp [Option.filter, hlen]

theorem count (h : AlikeExcept o m m') : m'.size = m.size := by
  have hshape : (m'.map fun _ b => b.length) = m.map fun _ b => b.length := by
    apply ExtTreeMap.ext_getElem?
    intro a
    rw [ExtTreeMap.getElem?_map, ExtTreeMap.getElem?_map]
    exact h.lengths a
  have hcount := congrArg ExtTreeMap.size hshape
  rwa [ExtTreeMap.size_map, ExtTreeMap.size_map] at hcount

theorem contains (h : AlikeExcept o m m') (a : ObjectId) : m'.contains a = m.contains a := by
  have hlen := congrArg Option.isSome (h.lengths a)
  rwa [Option.isSome_map, Option.isSome_map, ExtTreeMap.isSome_getElem?_eq_contains,
    ExtTreeMap.isSome_getElem?_eq_contains] at hlen

end AlikeExcept

/-- The call does not access `o` with a live capability that may read. -/
def Blind (o : ObjectId) (s : System) (call : Call) : Prop :=
  ∀ cap, call.regionAccess = some cap → cap.object = o →
    ¬(s.kernel.Live cap ∧ cap.rights.contains .READ = true)

/-- The systems are equal but for the bytes of `o`. -/
structure SameExcept (o : ObjectId) (s s' : System) : Prop where
  kernel : s'.kernel = s.kernel
  sched : s'.sched = s.sched
  channels : s'.channels = s.channels
  memory : AlikeExcept o s.memory.regions s'.memory.regions

/-- The stores differ in the bytes of one region, and `cap` is no live `READ` capability for it. -/
structure Unread (o : ObjectId) (k : Kernel) (reg reg' : RegionRegistry) (cap : Capability) :
    Prop where
  alike : AlikeExcept o reg.regions reg'.regions
  blind : cap.object = o → ¬(k.Live cap ∧ cap.rights.contains .READ = true)

namespace Unread
variable {o : ObjectId} {k : Kernel} {reg reg' : RegionRegistry} {cap : Capability}

open RegionRegistry

/-- Without `READ` a check for it fails. -/
theorem check_error (h : Unread o k reg reg' cap) (ho : cap.object = o) {r : Rights}
    (hr : r.contains .READ = true) : ∃ e, k.check cap r = .error e := by
  rcases k.check_cases cap r with ⟨-, hlive, hcap⟩ | he
  · exact absurd ⟨hlive, Rights.contains_trans hcap hr⟩ (h.blind ho)
  · exact he

theorem checkedRange (h : Unread o k reg reg' cap) (r : Rights) (offset len : ℕ) :
    reg'.checkedRange k cap r offset len = reg.checkedRange k cap r offset len := by
  have hlen := h.alike.lengths cap.object
  simp only [RegionRegistry.checkedRange]
  cases hm : reg.regions[cap.object]? with
  | none =>
    rw [hm, Option.map_none, Option.map_eq_none_iff] at hlen
    rw [hlen]
  | some bytes =>
    rw [hm] at hlen
    obtain ⟨bytes', hm', hlen⟩ := Option.map_eq_some_iff.mp hlen
    simp only [hm', hlen]

theorem read (h : Unread o k reg reg' cap) (offset len : ℕ) :
    reg'.read k cap offset len = reg.read k cap offset len := by
  simp only [RegionRegistry.read, h.checkedRange]
  by_cases ho : cap.object = o
  · obtain ⟨e, he⟩ := h.check_error ho (Rights.contains_refl .READ)
    simp only [RegionRegistry.checkedRange, he]
  · rw [h.alike.others _ ho]

theorem inspect {R : Type} (h : Unread o k reg reg' cap) (f : Bytes → R) :
    reg'.inspect k cap f = reg.inspect k cap f := by
  simp only [RegionRegistry.inspect]
  by_cases ho : cap.object = o
  · obtain ⟨e, he⟩ := h.check_error ho (Rights.contains_refl .READ)
    simp only [he]
  · rw [h.alike.others _ ho]

theorem size (h : Unread o k reg reg' cap) : reg'.size k cap = reg.size k cap := by
  have hlen := h.alike.lengths cap.object
  simp only [RegionRegistry.size, h.checkedRange]
  cases hm : reg.regions[cap.object]? with
  | none =>
    rw [hm, Option.map_none, Option.map_eq_none_iff] at hlen
    rw [hlen]
  | some bytes =>
    rw [hm] at hlen
    obtain ⟨bytes', hm', hlen⟩ := Option.map_eq_some_iff.mp hlen
    simp only [hm', hlen]

/-- A write goes through or fails the same, and leaves the stores alike. -/
theorem write (h : Unread o k reg reg' cap) (offset : ℕ) (data : Bytes) :
    (reg'.write k cap offset data).1 = (reg.write k cap offset data).1 ∧
      AlikeExcept o (reg.write k cap offset data).2.regions
        (reg'.write k cap offset data).2.regions := by
  have hrange := h.checkedRange .WRITE offset data.length
  rcases reg.checkedRange_cases k cap .WRITE offset data.length with
    ⟨e, he⟩ | ⟨bytes, -, hm, hfits, hok⟩
  · rw [he] at hrange
    simp only [RegionRegistry.write, he, hrange]
    exact ⟨trivial, h.alike⟩
  · rw [hok] at hrange
    have hlen := h.alike.lengths cap.object
    rw [hm] at hlen
    obtain ⟨bytes', hm', hlen⟩ := Option.map_eq_some_iff.mp hlen
    simp only [RegionRegistry.write, hok, hrange, hm, hm']
    refine ⟨trivial, h.alike.insert cap.object ?_ fun ho => ?_⟩
    · rw [length_overwrite _ _ _ hfits, length_overwrite _ _ _ (hlen ▸ hfits), hlen]
    · have hsame := h.alike.others _ ho
      rw [hm, hm'] at hsame
      rw [Option.some.inj hsame]

theorem update {R : Type} (h : Unread o k reg reg' cap) (f : SliceUpdate R) :
    (reg'.update k cap f).1 = (reg.update k cap f).1 ∧
      AlikeExcept o (reg.update k cap f).2.regions (reg'.update k cap f).2.regions := by
  simp only [RegionRegistry.update]
  by_cases ho : cap.object = o
  · obtain ⟨e, he⟩ := h.check_error ho (r := .READ ||| .WRITE) (by decide)
    simp only [he]
    exact ⟨trivial, h.alike⟩
  · rw [h.alike.others _ ho]
    cases k.check cap (.READ ||| .WRITE) with
    | error e => exact ⟨rfl, h.alike⟩
    | ok u =>
      cases hm : reg.regions[cap.object]? with
      | none => exact ⟨rfl, h.alike⟩
      | some bytes => exact ⟨rfl, h.alike.insert cap.object rfl fun _ => rfl⟩

theorem destroyRegion (h : Unread o k reg reg' cap) :
    (reg'.destroyRegion k cap).1 = (reg.destroyRegion k cap).1 ∧
      (reg'.destroyRegion k cap).2.2 = (reg.destroyRegion k cap).2.2 ∧
      AlikeExcept o (reg.destroyRegion k cap).2.1.regions (reg'.destroyRegion k cap).2.1.regions := by
  simp only [RegionRegistry.destroyRegion, h.alike.contains]
  cases k.check cap .DESTROY with
  | error e => exact ⟨rfl, rfl, h.alike⟩
  | ok u =>
    cases reg.regions.contains cap.object with
    | false => exact ⟨rfl, rfl, h.alike⟩
    | true =>
      cases k.destroyObject cap with
      | mk result k' =>
        cases result with
        | error e => exact ⟨rfl, rfl, h.alike⟩
        | ok u => exact ⟨rfl, rfl, h.alike.erase cap.object⟩

end Unread

theorem AlikeExcept.reclaim {o : ObjectId} {reg reg' : RegionRegistry}
    (h : AlikeExcept o reg.regions reg'.regions) (k : Kernel) :
    (reg'.reclaim k).1 = (reg.reclaim k).1 ∧
      AlikeExcept o (reg.reclaim k).2.regions (reg'.reclaim k).2.regions := by
  have hkept := h.filter k.objectExists
  refine ⟨?_, hkept⟩
  change _ - _ = _ - _
  rw [h.count, hkept.count]

/-- Calls that touch no region neither see nor change the region store. -/
theorem System.step_memory (s : System) (memory : RegionRegistry) {call : Call}
    (haccess : call.regionAccess = none) (hnew : ∀ size, call ≠ .newRegion size)
    (hreclaim : call ≠ .reclaim) :
    ({ s with memory } : System).step call = ((s.step call).1, { (s.step call).2 with memory }) ∧
      (s.step call).2.memory = s.memory := by
  cases call with
  | newObject r => exact ⟨rfl, rfl⟩
  | newChannel => exact ⟨rfl, rfl⟩
  | newRegion size => exact absurd rfl (hnew size)
  | derive cap r => exact ⟨rfl, rfl⟩
  | revoke cap => exact ⟨rfl, rfl⟩
  | reissue cap => exact ⟨rfl, rfl⟩
  | destroyObject cap => exact ⟨rfl, rfl⟩
  | spawn initial => exact ⟨rfl, rfl⟩
  | spawnChild parent grants => exact ⟨rfl, rfl⟩
  | send channel sender grants data | receive channel sender | recordLocalEvent sender
  | grant sender cap =>
    simp only [System.step, System.withProcess]
    cases s.sched.process sender with
    | none => exact ⟨rfl, rfl⟩
    | some p => exact ⟨rfl, rfl⟩
  | scheduleNext => exact ⟨rfl, rfl⟩
  | reclaim => exact absurd rfl hreclaim
  | _ => cases haccess

private theorem untouched {o : ObjectId} {k : Kernel} {sched : Scheduler}
    {channels : ChannelRegistry} {memory memory' : RegionRegistry}
    (h : AlikeExcept o memory.regions memory'.regions) {call : Call}
    (haccess : call.regionAccess = none) (hnew : ∀ size, call ≠ .newRegion size)
    (hreclaim : call ≠ .reclaim) :
    (System.step ⟨k, sched, channels, memory'⟩ call).1 =
        (System.step ⟨k, sched, channels, memory⟩ call).1 ∧
      SameExcept o (System.step ⟨k, sched, channels, memory⟩ call).2
        (System.step ⟨k, sched, channels, memory'⟩ call).2 := by
  obtain ⟨hstep, hsame⟩ :=
    System.step_memory ⟨k, sched, channels, memory⟩ memory' haccess hnew hreclaim
  simp only at hstep
  rw [hstep]
  refine ⟨rfl, rfl, rfl, rfl, ?_⟩
  rw [hsame]
  exact h

/-- One call: the same result, and the systems are still equal but for the bytes of `o`. -/
theorem SameExcept.step {o : ObjectId} {s s' : System} (h : SameExcept o s s') {call : Call}
    (hblind : Blind o s call) :
    (s'.step call).1 = (s.step call).1 ∧ SameExcept o (s.step call).2 (s'.step call).2 := by
  obtain ⟨k, sched, channels, memory⟩ := s
  obtain ⟨k', sched', channels', memory'⟩ := s'
  obtain ⟨rfl, rfl, rfl, hmemory⟩ := h
  have hunread : ∀ cap, call.regionAccess = some cap → Unread o k' memory memory' cap :=
    fun cap hcap => ⟨hmemory, hblind cap hcap⟩
  cases call with
  | newRegion size =>
    rcases Nat.lt_or_ge size (2 ^ 63) with hsize | hsize
    · have hnew (reg : RegionRegistry) : reg.newRegion k' size = _ :=
        RegionRegistry.newRegion_of_lt hsize
      simp only [System.step, hnew]
      exact ⟨trivial, rfl, rfl, rfl, hmemory.insert ⟨k'.nextId⟩ rfl fun _ => rfl⟩
    · have hnew (reg : RegionRegistry) : reg.newRegion k' size = _ :=
        RegionRegistry.newRegion_of_le hsize
      simp only [System.step, hnew]
      exact ⟨trivial, rfl, rfl, rfl, hmemory⟩
  | read cap offset len =>
    have hresult := (hunread cap rfl).read offset len
    exact ⟨congrArg (stopping _ _) hresult, rfl, rfl, rfl, hmemory⟩
  | inspect cap f =>
    have hresult := (hunread cap rfl).inspect f
    exact ⟨congrArg (returning _ _) hresult, rfl, rfl, rfl, hmemory⟩
  | size cap =>
    have hresult := (hunread cap rfl).size
    exact ⟨congrArg (stopping _ _) hresult, rfl, rfl, rfl, hmemory⟩
  | write cap offset data =>
    obtain ⟨hresult, halike⟩ := (hunread cap rfl).write offset data
    exact ⟨congrArg (stopping _ _) hresult, rfl, rfl, rfl, halike⟩
  | update cap f =>
    obtain ⟨hresult, halike⟩ := (hunread cap rfl).update f
    exact ⟨congrArg (returning _ _) hresult, rfl, rfl, rfl, halike⟩
  | destroyRegion cap =>
    obtain ⟨hresult, hkernel, halike⟩ := (hunread cap rfl).destroyRegion
    exact ⟨congrArg (returning _ _) hresult, hkernel, rfl, rfl, halike⟩
  | reclaim =>
    obtain ⟨hresult, halike⟩ := hmemory.reclaim k'
    exact ⟨congrArg (fun n => (.ok (.count n) : Outcome)) hresult, rfl, rfl, rfl, halike⟩
  | newObject r => exact untouched hmemory rfl nofun nofun
  | newChannel => exact untouched hmemory rfl nofun nofun
  | derive cap r => exact untouched hmemory rfl nofun nofun
  | revoke cap => exact untouched hmemory rfl nofun nofun
  | reissue cap => exact untouched hmemory rfl nofun nofun
  | destroyObject cap => exact untouched hmemory rfl nofun nofun
  | spawn initial => exact untouched hmemory rfl nofun nofun
  | spawnChild parent grants => exact untouched hmemory rfl nofun nofun
  | send channel sender grants data => exact untouched hmemory rfl nofun nofun
  | receive channel receiver => exact untouched hmemory rfl nofun nofun
  | recordLocalEvent id => exact untouched hmemory rfl nofun nofun
  | grant id cap => exact untouched hmemory rfl nofun nofun
  | scheduleNext => exact untouched hmemory rfl nofun nofun

/-- What a client of the crates can do next: a call, any use of `process_mut` (a `take`, a
`record_receive`), or a look at anything but the bytes of the regions. -/
inductive ClientAction where
  | call (call : Call)
  | onProcess (id : ProcessId) (f : Process → Outcome × Process)
  | look (f : Kernel → Scheduler → ChannelRegistry → ℕ → Outcome)

namespace ClientAction

def perform (s : System) : ClientAction → Outcome × System
  | .call c => s.step c
  | .onProcess id f => s.withProcess id fun p =>
    let (outcome, p) := f p
    (outcome, s.setProcess id p)
  | .look f => (f s.kernel s.sched s.channels s.memory.regionCount, s)

/-- The action does not access `o` with a live capability that may read. -/
def Blind (o : ObjectId) (s : System) : ClientAction → Prop
  | .call c => Muaddib.Blind o s c
  | _ => True

end ClientAction

theorem SameExcept.perform {o : ObjectId} {s s' : System} (h : SameExcept o s s') {action : ClientAction}
    (hblind : action.Blind o s) : (action.perform s').1 = (action.perform s).1 ∧
      SameExcept o (action.perform s).2 (action.perform s').2 := by
  cases action with
  | call c => exact h.step hblind
  | onProcess id f =>
    simp only [ClientAction.perform, System.withProcess, h.sched]
    cases s.sched.process id with
    | none => exact ⟨rfl, h⟩
    | some p => exact ⟨rfl, h.kernel, congrArg (·.setProcess id (f p).2) h.sched, h.channels,
        h.memory⟩
  | look f =>
    have hcount : s'.memory.regionCount = s.memory.regionCount := h.memory.count
    simp only [ClientAction.perform, h.kernel, h.sched, h.channels, hcount]
    exact ⟨trivial, h⟩

/-- `n` actions of a client that chooses each by the results so far. -/
def play (client : List Outcome → ClientAction) (s : System) : ℕ → List Outcome × System
  | 0 => ([], s)
  | n + 1 =>
    let (results, s) := play client s n
    let (outcome, s) := (client results).perform s
    (results ++ [outcome], s)

/-- A client that never accesses `o` with a live `READ` capability gets the same results from two
systems that are equal but for the bytes of `o`, and leaves them so. -/
theorem regions_confidential {o : ObjectId} {s s' : System} (h : SameExcept o s s')
    (client : List Outcome → ClientAction) (n : ℕ)
    (hblind : ∀ m, m < n → (client (play client s m).1).Blind o (play client s m).2) :
    (play client s' n).1 = (play client s n).1 ∧
      SameExcept o (play client s n).2 (play client s' n).2 := by
  induction n with
  | zero => exact ⟨rfl, h⟩
  | succ n ih =>
    obtain ⟨hresults, hsame⟩ := ih fun m hm => hblind m (Nat.lt_succ_of_lt hm)
    obtain ⟨houtcome, hnext⟩ := hsame.perform (hblind n (Nat.lt_succ_self n))
    simp only [play, hresults]
    refine ⟨?_, hnext⟩
    rw [houtcome]

def System.oneByte (byte : UInt8) : System :=
  ⟨(System.new.step (.newRegion 1)).2.kernel, .new, .new,
    ⟨(∅ : ExtTreeMap ObjectId Bytes).insert ⟨0⟩ [byte]⟩⟩

/-- A writer that derives its view, writes, tries to read the byte and then its size. -/
def probing : List Outcome → ClientAction
  | [] => .call (.derive ⟨⟨0⟩, .READ ||| .WRITE ||| .GRANT ||| .DESTROY, 0⟩ .WRITE)
  | [_] => .call (.write ⟨⟨0⟩, .WRITE, 0⟩ 0 [])
  | [_, _] => .call (.read ⟨⟨0⟩, .WRITE, 0⟩ 0 1)
  | _ => .call (.size ⟨⟨0⟩, .WRITE, 0⟩)

/-- No action of `probing` uses a capability that may read. -/
private theorem probing_blind (results : List Outcome) (s : System) :
    (probing results).Blind ⟨0⟩ s := by
  have hwriter : ¬Rights.contains .WRITE .READ = true := by decide
  unfold probing
  split
  · rintro cap hcap
    cases hcap
  · rintro cap hcap - ⟨-, hread⟩
    cases hcap
    exact hwriter hread
  · rintro cap hcap - ⟨-, hread⟩
    cases hcap
    exact hwriter hread
  · rintro cap hcap - ⟨-, hread⟩
    cases hcap
    exact hwriter hread

theorem regions_confidential_probing :
    (play probing (.oneByte 7) 4).1 = (play probing (.oneByte 0) 4).1 ∧
      SameExcept ⟨0⟩ (play probing (.oneByte 0) 4).2 (play probing (.oneByte 7) 4).2 := by
  have hsame : SameExcept ⟨0⟩ (.oneByte 0) (.oneByte 7) := by
    refine ⟨rfl, rfl, rfl, fun a ha => ?_, ?_⟩
    · simp only [System.oneByte, FiniteMaps.getElem?_insert, if_neg (Ne.symm ha)]
    · simp only [System.oneByte, FiniteMaps.getElem?_insert, if_true]
      rfl
  exact regions_confidential hsame probing 4 fun m _ => probing_blind _ _

end Muaddib
