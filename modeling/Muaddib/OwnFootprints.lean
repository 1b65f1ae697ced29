import Muaddib.Confinement
import Muaddib.IndependentCalls

/-! # What a deed can look at

A process looks at its own table and at the objects its table names. Only what creates an object
or a process also looks at the counters, and writes at the ids they give out. -/
namespace Muaddib
open Footprints LabelledRuns SystemEntry

namespace Call

def creates : Call → Bool
  | .newObject _ | .newChannel | .newRegion _ | .spawn _ | .spawnChild .. => true
  | _ => false

end Call

def Deed.creates : Deed → Bool
  | .newObject _ | .newChannel | .newRegion _ | .spawnChild _ => true
  | _ => false

/-- `E` has the process and every object that its table names. -/
structure Covers (E : Set Cell) (s : System) (id : ProcessId) : Prop where
  self : .process id ∈ E
  held : ∀ p h c, s.sched.process id = some p → p.capability h = some c → .object c.object ∈ E

/-- `E` has the counters that the call takes an id from, and the object or process it is given to. -/
structure Spares (E : Set Cell) (s : System) (call : Call) : Prop where
  counters : call.creates = true → .counters ∈ E
  object : allocates (entry System.step s call) = true → .object ⟨s.kernel.nextId⟩ ∈ E
  process : isSpawn (entry System.step s call) = true → .process ⟨s.sched.nextProcessId⟩ ∈ E

namespace System

theorem writes_counters (id pid : UInt64 → UInt64) (ready : List ProcessId → List ProcessId)
    {w : System → System} (hnext : ∀ s, (w s).kernel.nextId = id s.kernel.nextId)
    (hpid : ∀ s, (w s).sched.nextProcessId = pid s.sched.nextProcessId)
    (hready : ∀ s, (w s).sched.readyQueue = ready s.sched.readyQueue)
    (hepochs : ∀ s, (w s).kernel.epochs = s.kernel.epochs)
    (hprocesses : ∀ s, (w s).sched.processes = s.sched.processes)
    (hchannels : ∀ s, (w s).channels = s.channels) (hmemory : ∀ s, (w s).memory = s.memory) :
    Writes view .counters w := by
  refine ⟨fun | .counters n p r => .counters (id n) (pid p) (ready r) | x => x, fun s => ?_,
    fun s c hc => ?_⟩
  · simp only [view, hnext, hpid, hready]
  · cases c with
    | object a => simp only [view, hepochs, hchannels, hmemory]
    | process p => simp only [view, Scheduler.process, hprocesses]
    | counters => exact absurd rfl hc

theorem writes_nextId : Writes view .counters
    fun s => { s with kernel := { s.kernel with nextId := s.kernel.nextId + 1 } } :=
  writes_counters (· + 1) id id (fun _ => rfl) (fun _ => rfl) (fun _ => rfl) (fun _ => rfl)
    (fun _ => rfl) (fun _ => rfl) fun _ => rfl

theorem writes_enroll (id : ProcessId) : Writes view .counters fun s => { s with
    sched := { s.sched with
      nextProcessId := s.sched.nextProcessId + 1
      readyQueue := s.sched.readyQueue ++ [id] } } :=
  writes_counters (fun n => n) (· + 1) (· ++ [id]) (fun _ => rfl) (fun _ => rfl) (fun _ => rfl)
    (fun _ => rfl) (fun _ => rfl) (fun _ => rfl) fun _ => rfl

end System

section Creation
variable {E : Set Cell} {s t : System} {id : ProcessId}

theorem Footprints.Agree.contents (h : Agree System.view E s t) {o : ObjectId} (ho : .object o ∈ E) :
    t.kernel.epochs[o]? = s.kernel.epochs[o]? ∧ t.channels.queues[o]? = s.channels.queues[o]? ∧
      t.memory.regions[o]? = s.memory.regions[o]? :=
  Contents.object.inj (h (.object o) ho)

theorem Footprints.Agree.table (h : Agree System.view E s t) (hid : .process id ∈ E) :
    t.sched.process id = s.sched.process id :=
  Contents.process.inj (h (.process id) hid)

theorem Footprints.Agree.counters (h : Agree System.view E s t) (hE : .counters ∈ E) :
    t.kernel.nextId = s.kernel.nextId ∧ t.sched.nextProcessId = s.sched.nextProcessId ∧
      t.sched.readyQueue = s.sched.readyQueue :=
  Contents.counters.inj (h .counters hE)

private theorem tracks_newObject (ht : Agree System.view E s t) (hcounters : .counters ∈ E)
    (hobject : .object ⟨s.kernel.nextId⟩ ∈ E) :
    Tracks System.view E t
      { s with kernel := ⟨s.kernel.nextId + 1, s.kernel.epochs.insert ⟨s.kernel.nextId⟩ 0⟩ }
      { t with kernel := ⟨t.kernel.nextId + 1, t.kernel.epochs.insert ⟨t.kernel.nextId⟩ 0⟩ } := by
  have hnext : ObjectId.mk t.kernel.nextId = ⟨s.kernel.nextId⟩ :=
    congrArg ObjectId.mk (ht.counters hcounters).1
  rw [hnext]
  exact (ht.tracks.write (System.writes_insertEpoch ⟨s.kernel.nextId⟩ 0) hobject).write
    System.writes_nextId hcounters

theorem newObject_local {r : Rights} (hE : Spares E s (.newObject r)) :
    Local System.view E s (·.step (.newObject r)) := by
  intro t ht
  obtain ⟨hnext, -, -⟩ := ht.counters (hE.counters rfl)
  refine ⟨?_, tracks_newObject ht (hE.counters rfl) (hE.object rfl)⟩
  simp only [System.step, Kernel.newObject, hnext]

theorem newChannel_local (hE : Spares E s .newChannel) :
    Local System.view E s (·.step .newChannel) := by
  intro t ht
  obtain ⟨hnext, -, -⟩ := ht.counters (hE.counters rfl)
  have htracks := (tracks_newObject ht (hE.counters rfl) (hE.object rfl)).write
    (System.writes_queue ⟨s.kernel.nextId⟩ []) (hE.object rfl)
  simp only [System.step, ChannelRegistry.newChannel, Kernel.newObject, hnext] at htracks ⊢
  exact ⟨trivial, htracks⟩

theorem newRegion_local {size : ℕ} (hE : Spares E s (.newRegion size)) :
    Local System.view E s (·.step (.newRegion size)) := by
  intro t ht
  obtain ⟨hnext, -, -⟩ := ht.counters (hE.counters rfl)
  have hobject := hE.object (s.allocates_newRegion size)
  rcases Nat.lt_or_ge size (2 ^ 63) with hsize | hsize
  · have htracks := (tracks_newObject ht (hE.counters rfl) hobject).write
      (System.writes_region ⟨s.kernel.nextId⟩ (List.replicate size 0)) hobject
    simp only [System.step, RegionRegistry.newRegion_of_lt hsize, Kernel.newObject, hnext] at htracks ⊢
    exact ⟨trivial, htracks⟩
  · have htracks := tracks_newObject ht (hE.counters rfl) hobject
    simp only [System.step, RegionRegistry.newRegion_of_le hsize, Kernel.newObject, hnext] at htracks ⊢
    exact ⟨trivial, htracks⟩

private theorem batch_covered {p : Process} (hE : Covers E s id) (hp : s.sched.process id = some p)
    {batch : List (Grant × Capability)} (hb : Resolved s.kernel p batch) {x : Grant × Capability}
    (hx : x ∈ batch) (hm : x.1.isMove = true) : .object x.2.object ∈ E := by
  obtain ⟨g, cap⟩ := x
  have hgrant := hb.entries _ hx
  cases g with
  | transfer a => cases hm
  | derive a r => cases hm
  | move a => exact hE.held p a cap hp (resolveGrant_move_iff.mp hgrant).1

theorem spawnChild_local {grants : List Grant} (hE : Covers E s id)
    (hspare : Spares E s (.spawnChild id grants)) :
    Local System.view E s (·.step (.spawnChild id grants)) := by
  intro t ht
  obtain ⟨-, hpid, -⟩ := ht.counters (hspare.counters rfl)
  have hparent := ht.table hE.self
  cases hp : s.sched.process id with
  | none =>
    rw [hp] at hparent
    simp only [System.step, Scheduler.spawnChild, hp, hparent]
    exact ⟨trivial, ht.tracks⟩
  | some p =>
    rw [hp] at hparent
    have hresolve : resolveGrants t.kernel p grants = resolveGrants s.kernel p grants :=
      resolveGrants_congr fun g _ cap hcap => (ht.contents (hE.held p g.handle cap hp hcap)).1
    cases hr : resolveGrants s.kernel p grants with
    | error e =>
      rw [hr] at hresolve
      simp only [System.step, Scheduler.spawnChild, hp, hparent, hr, hresolve]
      exact ⟨trivial, ht.tracks⟩
    | ok resolved =>
      rw [hr] at hresolve
      obtain ⟨batch, hb, rfl, rfl⟩ := resolveGrants_eq_ok_iff.mp hr
      obtain ⟨batch', hb', hfst, hsnd⟩ := resolveGrants_eq_ok_iff.mp hresolve
      obtain rfl : batch = batch' :=
        (List.zip_of_prod hfst hsnd).trans (List.zip_of_prod rfl rfl).symm
      have hspawned := hspare.process (by
        simp [isSpawn, entry, System.step, Scheduler.spawnChild_of_resolved hp hb, stopping])
      simp only [System.step, Scheduler.spawnChild_of_resolved hp hb,
        Scheduler.spawnChild_of_resolved hparent hb', stopping, hpid]
      refine ⟨trivial, ?_⟩
      let childId : ProcessId := ⟨s.sched.nextProcessId⟩
      let child := Scheduler.newborn childId p.clock.sendEvent.1 (batch.map deliver)
      have hmoved := tracks_moveObjects ht.tracks fun x hx hm => batch_covered hE hp hb hx hm
      exact ((hmoved.write (System.writes_setProcess id (p.depart batch)) hE.self).write
        (System.writes_enroll childId) (hspare.counters rfl)).write
          (System.writes_setProcess childId child) hspawned

end Creation

section Deeds
variable {E : Set Cell} {s : System} {id : ProcessId}

theorem size_local {cap : Capability} (hcap : .object cap.object ∈ E) :
    Local System.view E s (·.step (.size cap)) := by
  intro t ht
  obtain ⟨hepochs, -, hregion⟩ := ht.contents hcap
  refine ⟨?_, ht.tracks⟩
  simp only [System.step, RegionRegistry.size, RegionRegistry.checkedRange,
    Kernel.check_congr hepochs, hregion]

theorem grant_local (hid : .process id ∈ E) (cap : Capability) :
    Local System.view E s (·.step (.grant id cap)) := by
  intro t ht
  simp only [System.step, System.withProcess, ht.table hid]
  cases s.sched.process id with
  | none => exact ⟨rfl, ht.tracks⟩
  | some p => exact ⟨rfl, ht.tracks.write (System.writes_setProcess id _) hid⟩

theorem Call.By.cells_subset {call : Call} (h : call.By id) (hE : Covers E s id)
    (hcaps : ∀ c ∈ call.capabilities, .object c.object ∈ E) : call.cells id s ⊆ E := by
  rintro c (rfl | ⟨o, ho, rfl⟩)
  · exact hE.self
  · cases call with
    | send channel sender grants data =>
      obtain rfl : sender = id := h
      rcases List.mem_cons.mp ho with rfl | ho
      · exact hcaps channel List.mem_cons_self
      · obtain ⟨g, -, hg⟩ := List.mem_filterMap.mp ho
        obtain ⟨cap, hcap, rfl⟩ := Option.map_eq_some_iff.mp hg
        obtain ⟨p, hp, hcap⟩ := Option.bind_eq_some_iff.mp hcap
        exact hE.held p g.handle cap hp hcap
    | receive | derive | revoke | reissue | destroyObject | read | write | inspect | update
    | destroyRegion =>
      obtain rfl := List.mem_singleton.mp ho
      exact hcaps _ List.mem_cons_self
    | recordLocalEvent => cases ho
    | _ => cases h

/-- A process's own call is local to what covers the process and the capabilities of the call. -/
theorem Call.Own.local {call : Call} (h : call.Own id) (hE : Covers E s id)
    (hcaps : ∀ c ∈ call.capabilities, .object c.object ∈ E)
    (hspare : Spares E s call) : Local System.view E s (·.step call) := by
  have hby (hcall : call.By id) : Local System.view E s (·.step call) :=
    hcall.local.mono (hcall.cells_subset hE hcaps)
  cases call with
  | newObject => exact newObject_local hspare
  | newChannel => exact newChannel_local hspare
  | newRegion => exact newRegion_local hspare
  | spawnChild parent grants =>
    obtain rfl : parent = id := h
    exact spawnChild_local hE hspare
  | size cap => exact size_local (hcaps cap List.mem_cons_self)
  | grant i cap =>
    obtain rfl : i = id := h
    exact grant_local hE.self cap
  | spawn | reclaim | scheduleNext => cases h
  | send | receive | recordLocalEvent => exact hby h
  | derive | revoke | reissue | destroyObject | read | write | inspect | update | destroyRegion =>
    exact hby trivial

def Deed.follow (id : ProcessId) (deed : Deed) (call : Call) (outcome : Outcome) (s : System) :
    List (Call × Outcome) × System :=
  match deed.keeps, outcome with
  | true, .ok (.capability cap) =>
    ([(call, outcome), (.grant id cap, (s.step (.grant id cap)).1)], (s.step (.grant id cap)).2)
  | _, _ => ([(call, outcome)], s)

/-- The calls of a deed, what they returned, and where they led. -/
def System.act (s : System) (id : ProcessId) (deed : Deed) : List (Call × Outcome) × System :=
  ((trace System.step s (s.calls id deed)).map fun e => (e.call, e.outcome),
    final System.step s (s.calls id deed))

theorem System.act_eq (s : System) (id : ProcessId) (deed : Deed) :
    s.act id deed = match (s.sched.process id).bind (deed.call id) with
      | none => ([], s)
      | some call => deed.follow id call (s.step call).1 (s.step call).2 := by
  unfold System.act System.calls
  cases (s.sched.process id).bind (deed.call id) with
  | none => rfl
  | some call =>
    cases hkeeps : deed.keeps with
    | false => simp only [Deed.follow, hkeeps, trace, final, entry, List.map, List.foldl]
    | true =>
      rcases houtcome : (s.step call).1 with e | value
      · simp only [Deed.follow, hkeeps, houtcome, trace, final, entry, List.map, List.foldl]
      · cases value <;>
          simp only [Deed.follow, hkeeps, houtcome, trace, final, entry, List.map, List.foldl]

theorem System.entry_mem_calls {deed : Deed} {call : Call}
    (h : (s.sched.process id).bind (deed.call id) = some call) :
    entry System.step s call ∈ trace System.step s (s.calls id deed) := by
  unfold System.calls
  rw [h]
  simp only
  split <;> exact List.mem_cons_self

theorem Deed.creates_call {p : Process} {deed : Deed} {call : Call} (h : deed.call id p = some call) :
    call.creates = deed.creates := by
  cases deed with
  | newObject | newChannel | newRegion | spawnChild | recordLocalEvent =>
    obtain rfl := Option.some.inj h
    rfl
  | _ =>
    obtain ⟨held, -, rfl⟩ := Option.map_eq_some_iff.mp h
    rfl

/-- A deed is local to what covers the process, and the ids that are given out. -/
theorem Deed.local {deed : Deed} (hE : Covers E s id) (hcounters : deed.creates = true → .counters ∈ E)
    (hobject : ∀ e ∈ trace System.step s (s.calls id deed), allocates e = true →
      .object ⟨s.kernel.nextId⟩ ∈ E)
    (hprocess : ∀ e ∈ trace System.step s (s.calls id deed), isSpawn e = true →
      .process ⟨s.sched.nextProcessId⟩ ∈ E) : Local System.view E s (·.act id deed) := by
  cases hcall : (s.sched.process id).bind (deed.call id) with
  | none =>
    intro t ht
    have hnone := hcall
    rw [← ht.table hE.self] at hnone
    simp only [System.act_eq, hcall, hnone]
    exact ⟨trivial, ht.tracks⟩
  | some call =>
    obtain ⟨p, hp, hdeed⟩ := Option.bind_eq_some_iff.mp hcall
    obtain ⟨hown, hcaps⟩ := Deed.call_own hdeed
    have hentry := System.entry_mem_calls hcall
    have hfirst : Local System.view E s (·.step call) := by
      refine hown.local hE (fun c hc => ?_) ⟨fun hcreates => ?_, hobject _ hentry, hprocess _ hentry⟩
      · obtain ⟨a, ha⟩ := hcaps c hc
        exact hE.held p a c hp ha
      · exact hcounters (Deed.creates_call hdeed ▸ hcreates)
    have hfollow : Local System.view E (s.step call).2 (deed.follow id call (s.step call).1) := by
      unfold Deed.follow
      split
      · next cap _ _ =>
        have hgrant := grant_local (s := (s.step call).2) hE.self cap
        intro t ht
        obtain ⟨hresult, htracks⟩ := hgrant t ht
        exact ⟨congrArg (fun r => [(call, (s.step call).1), (Call.grant id cap, r)]) hresult, htracks⟩
      · exact fun t ht => ⟨rfl, ht.tracks⟩
    have hboth := hfirst.bind hfollow
    intro t ht
    have hsome := hcall
    rw [← ht.table hE.self] at hsome
    simp only [System.act_eq, hcall, hsome]
    exact hboth t ht

end Deeds
end Muaddib
