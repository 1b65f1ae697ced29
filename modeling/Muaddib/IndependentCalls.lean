import Muaddib.Footprints
import Muaddib.SystemCalls

/-! # Calls on different processes and objects commute

The cells of a system are its objects, its processes and its counters. A call is local to the
process that makes it and the objects it names. -/
namespace Muaddib
open Footprints

inductive Cell where
  | object (o : ObjectId)
  | process (p : ProcessId)
  | counters
  deriving DecidableEq

/-- What a system holds at a cell: an epoch, a queue and bytes, or a process, or what the calls
that create objects and processes count with and the ready queue. -/
inductive Contents where
  | object (epoch : Option UInt64) (queue : Option (List Message)) (bytes : Option Bytes)
  | process (p : Option Process)
  | counters (nextId nextProcessId : UInt64) (ready : List ProcessId)

namespace System

def view (s : System) : Cell → Contents
  | .object o => .object s.kernel.epochs[o]? s.channels.queues[o]? s.memory.regions[o]?
  | .process p => .process (s.sched.process p)
  | .counters => .counters s.kernel.nextId s.sched.nextProcessId s.sched.readyQueue

theorem view_injective : Function.Injective view := by
  rintro ⟨⟨nextId, epochs⟩, ⟨processes, nextPid, ready⟩, ⟨queues⟩, ⟨regions⟩⟩
    ⟨⟨nextId', epochs'⟩, ⟨processes', nextPid', ready'⟩, ⟨queues'⟩, ⟨regions'⟩⟩ h
  have hobject (o : ObjectId) := Contents.object.inj (congrFun h (.object o))
  have hprocess (p : ProcessId) := Contents.process.inj (congrFun h (.process p))
  obtain ⟨rfl, rfl, rfl⟩ := Contents.counters.inj (congrFun h .counters)
  obtain rfl : epochs = epochs' := Std.ExtTreeMap.ext_getElem? fun {o} => (hobject o).1
  obtain rfl : queues = queues' := Std.ExtTreeMap.ext_getElem? fun {o} => (hobject o).2.1
  obtain rfl : regions = regions' := Std.ExtTreeMap.ext_getElem? fun {o} => (hobject o).2.2
  obtain rfl : processes = processes' := Std.ExtTreeMap.ext_getElem? fun {p} => hprocess p
  rfl

theorem writes_object {w : System → System} {o : ObjectId}
    (epoch : Option UInt64 → Option UInt64)
    (queue : Option (List Message) → Option (List Message))
    (bytes : Option Bytes → Option Bytes)
    (hepochs : ∀ s a, (w s).kernel.epochs[a]? =
      if o = a then epoch s.kernel.epochs[a]? else s.kernel.epochs[a]?)
    (hqueues : ∀ s a, (w s).channels.queues[a]? =
      if o = a then queue s.channels.queues[a]? else s.channels.queues[a]?)
    (hregions : ∀ s a, (w s).memory.regions[a]? =
      if o = a then bytes s.memory.regions[a]? else s.memory.regions[a]?)
    (hsched : ∀ s, (w s).sched = s.sched)
    (hcounter : ∀ s, (w s).kernel.nextId = s.kernel.nextId) : Writes view (.object o) w := by
  refine ⟨fun | .object e q b => .object (epoch e) (queue q) (bytes b) | x => x, fun s => ?_,
    fun s c hc => ?_⟩
  · simp only [view, hepochs, hqueues, hregions, if_true]
  · cases c with
    | object a =>
      have ha : o ≠ a := fun ha => hc (congrArg Cell.object ha.symm)
      simp only [view, hepochs, hqueues, hregions, if_neg ha]
    | process p => simp only [view, hsched]
    | counters => simp only [view, hsched, hcounter]

theorem writes_insertEpoch (o : ObjectId) (epoch : UInt64) : Writes view (.object o)
    fun s => { s with kernel := { s.kernel with epochs := s.kernel.epochs.insert o epoch } } := by
  refine writes_object (fun _ => some epoch) id id (fun s a => ?_) (fun s a => ?_)
    (fun s a => ?_) (fun _ => rfl) fun _ => rfl
  · exact FiniteMaps.getElem?_insert ..
  · exact (ite_self _).symm
  · exact (ite_self _).symm

theorem writes_eraseEpoch (o : ObjectId) : Writes view (.object o)
    fun s => { s with kernel := s.kernel.remove o } := by
  refine writes_object (fun _ => none) id id (fun s a => ?_) (fun s a => ?_)
    (fun s a => ?_) (fun _ => rfl) fun _ => rfl
  · exact FiniteMaps.getElem?_erase ..
  · exact (ite_self _).symm
  · exact (ite_self _).symm

theorem writes_queue (o : ObjectId) (queue : List Message) : Writes view (.object o)
    fun s => { s with channels := ⟨s.channels.queues.insert o queue⟩ } := by
  refine writes_object id (fun _ => some queue) id (fun s a => ?_) (fun s a => ?_)
    (fun s a => ?_) (fun _ => rfl) fun _ => rfl
  · exact (ite_self _).symm
  · exact FiniteMaps.getElem?_insert ..
  · exact (ite_self _).symm

theorem writes_region (o : ObjectId) (bytes : Bytes) : Writes view (.object o)
    fun s => { s with memory := ⟨s.memory.regions.insert o bytes⟩ } := by
  refine writes_object id id (fun _ => some bytes) (fun s a => ?_) (fun s a => ?_)
    (fun s a => ?_) (fun _ => rfl) fun _ => rfl
  · exact (ite_self _).symm
  · exact (ite_self _).symm
  · exact FiniteMaps.getElem?_insert ..

theorem writes_eraseRegion (o : ObjectId) : Writes view (.object o)
    fun s => { s with memory := ⟨s.memory.regions.erase o⟩ } := by
  refine writes_object id id (fun _ => none) (fun s a => ?_) (fun s a => ?_)
    (fun s a => ?_) (fun _ => rfl) fun _ => rfl
  · exact (ite_self _).symm
  · exact (ite_self _).symm
  · exact FiniteMaps.getElem?_erase ..

theorem writes_setProcess (id : ProcessId) (p : Process) : Writes view (.process id)
    fun s => s.setProcess id p := by
  refine ⟨fun _ => .process (some p), fun s => ?_, fun s c hc => ?_⟩
  · exact congrArg Contents.process ((process_setProcess s.sched id p id).trans (if_pos rfl))
  · cases c with
    | object a => rfl
    | process q =>
      have hq : id ≠ q := fun hq => hc (congrArg Cell.process hq.symm)
      exact congrArg Contents.process ((process_setProcess s.sched id p q).trans (if_neg hq))
    | counters => rfl

end System

theorem Kernel.derive_congr {k k' : Kernel} {cap : Capability}
    (h : k'.epochs[cap.object]? = k.epochs[cap.object]?) (r : Rights) :
    k'.derive cap r = k.derive cap r := by
  simp only [Kernel.derive, check_congr h]

section Batches
variable {k k' : Kernel} {p : Process}

theorem resolveGrant_congr {g : Grant} (h : ∀ cap, p.capability g.handle = some cap →
    k'.epochs[cap.object]? = k.epochs[cap.object]?) :
    resolveGrant k' p g = resolveGrant k p g := by
  unfold resolveGrant
  cases hcap : p.capability g.handle with
  | none => rfl
  | some held =>
    cases g with
    | transfer a => rfl
    | derive a r => simp only [Kernel.derive_congr (h held hcap)]
    | move a => simp only [Kernel.check_congr (h held hcap)]

/-- Resolving a batch reads the epochs of the objects its handles name. -/
theorem resolveGrants_congr {grants : List Grant} (h : ∀ g ∈ grants, ∀ cap,
    p.capability g.handle = some cap → k'.epochs[cap.object]? = k.epochs[cap.object]?) :
    resolveGrants k' p grants = resolveGrants k p grants := by
  have hentries : ∀ transferred,
      resolveEntries k' p transferred grants = resolveEntries k p transferred grants := by
    induction grants with
    | nil => exact fun _ => rfl
    | cons g grants ih =>
      intro transferred
      have hgrant := resolveGrant_congr (h g List.mem_cons_self)
      have hrest := ih fun g hg => h g (List.mem_cons_of_mem _ hg)
      simp only [resolveEntries, hgrant, hrest]
  simp only [resolveGrants, hentries]

end Batches

namespace Call

/-- The call is one that `p` makes: on its own table and clock, or with a capability. -/
def By (p : ProcessId) : Call → Prop
  | .send _ sender _ _ => sender = p
  | .receive _ receiver => receiver = p
  | .recordLocalEvent id => id = p
  | .derive .. | .revoke _ | .reissue _ | .destroyObject _ | .read .. | .write .. | .inspect ..
  | .update .. | .destroyRegion _ => True
  | _ => False

/-- The objects of the call's capability argument and of its sender's capabilities at the
handles of its grants. -/
def names (s : System) : Call → List ObjectId
  | .send channel sender grants _ => channel.object :: grants.filterMap fun g =>
    ((s.sched.process sender).bind (·.capability g.handle)).map Capability.object
  | .receive channel _ => [channel.object]
  | .derive cap _ | .revoke cap | .reissue cap | .destroyObject cap | .read cap _ _
  | .write cap _ _ | .inspect cap _ | .update cap _ | .destroyRegion cap => [cap.object]
  | _ => []

/-- The cells of a call by `p`. -/
def cells (p : ProcessId) (s : System) (call : Call) : Set Cell :=
  {c | c = .process p ∨ ∃ o ∈ call.names s, c = .object o}

end Call

section Locality
variable {s t : System} {p : ProcessId}

theorem Agree.object {call : Call} (h : Agree System.view (call.cells p s) s t) {o : ObjectId}
    (ho : o ∈ call.names s) : t.kernel.epochs[o]? = s.kernel.epochs[o]? ∧
      t.channels.queues[o]? = s.channels.queues[o]? ∧
      t.memory.regions[o]? = s.memory.regions[o]? :=
  Contents.object.inj (h (.object o) (Or.inr ⟨o, ho, rfl⟩))

theorem Agree.process {call : Call} (h : Agree System.view (call.cells p s) s t) :
    t.sched.process p = s.sched.process p :=
  Contents.process.inj (h (.process p) (Or.inl rfl))

private theorem kernel_local (cap : Capability) :
    Local System.view ((Call.revoke cap).cells p s) s (·.step (.revoke cap)) ∧
    Local System.view ((Call.reissue cap).cells p s) s (·.step (.reissue cap)) ∧
    Local System.view ((Call.destroyObject cap).cells p s) s (·.step (.destroyObject cap)) := by
  have hcell : Cell.object cap.object ∈ (Call.revoke cap).cells p s :=
    Or.inr ⟨cap.object, List.mem_singleton_self _, rfl⟩
  refine ⟨fun t ht => ?_, fun t ht => ?_, fun t ht => ?_⟩
  all_goals
    have hcheck := Kernel.check_congr (Agree.object ht (List.mem_singleton_self _)).1 .DESTROY
  · rcases s.kernel.check_cases cap .DESTROY with ⟨hc, hl, hd⟩ | ⟨e, he⟩
    · rw [hc] at hcheck
      obtain ⟨hl', hd'⟩ := Kernel.check_eq_ok_iff.mp hcheck
      simp only [System.step, Kernel.revoke_of_live hl hd, Kernel.revoke_of_live hl' hd']
      exact ⟨trivial, ht.tracks.write (System.writes_insertEpoch cap.object (cap.epoch + 1)) hcell⟩
    · rw [he] at hcheck
      simp only [System.step, Kernel.revoke_of_error he, Kernel.revoke_of_error hcheck]
      exact ⟨trivial, ht.tracks⟩
  · rcases s.kernel.check_cases cap .DESTROY with ⟨hc, hl, hd⟩ | ⟨e, he⟩
    · rw [hc] at hcheck
      obtain ⟨hl', hd'⟩ := Kernel.check_eq_ok_iff.mp hcheck
      simp only [System.step, Kernel.reissue_of_live hl hd, Kernel.reissue_of_live hl' hd']
      exact ⟨trivial, ht.tracks.write (System.writes_insertEpoch cap.object (cap.epoch + 1)) hcell⟩
    · rw [he] at hcheck
      simp only [System.step, Kernel.reissue_of_error he, Kernel.reissue_of_error hcheck]
      exact ⟨trivial, ht.tracks⟩
  · rcases s.kernel.check_cases cap .DESTROY with ⟨hc, hl, hd⟩ | ⟨e, he⟩
    · rw [hc] at hcheck
      obtain ⟨hl', hd'⟩ := Kernel.check_eq_ok_iff.mp hcheck
      simp only [System.step, Kernel.destroyObject_of_live hl hd,
        Kernel.destroyObject_of_live hl' hd']
      exact ⟨trivial, ht.tracks.write (System.writes_eraseEpoch cap.object) hcell⟩
    · rw [he] at hcheck
      simp only [System.step, Kernel.destroyObject_of_error he,
        Kernel.destroyObject_of_error hcheck]
      exact ⟨trivial, ht.tracks⟩

private theorem access_local (cap : Capability) :
    (∀ r, Local System.view ((Call.derive cap r).cells p s) s (·.step (.derive cap r))) ∧
    (∀ offset len, Local System.view ((Call.read cap offset len).cells p s) s
      (·.step (.read cap offset len))) ∧
    (∀ f, Local System.view ((Call.inspect cap f).cells p s) s (·.step (.inspect cap f))) := by
  refine ⟨fun r t ht => ?_, fun offset len t ht => ?_, fun f t ht => ?_⟩
  all_goals
    obtain ⟨hepochs, -, hregion⟩ := Agree.object ht (List.mem_singleton_self _)
    refine ⟨?_, ht.tracks⟩
  · simp only [System.step, Kernel.derive_congr hepochs]
  · simp only [System.step, RegionRegistry.read, RegionRegistry.checkedRange,
      Kernel.check_congr hepochs, hregion]
  · simp only [System.step, RegionRegistry.inspect, Kernel.check_congr hepochs, hregion]

private theorem write_local (cap : Capability) (offset : ℕ) (data : Bytes) :
    Local System.view ((Call.write cap offset data).cells p s) s
      (·.step (.write cap offset data)) := by
  intro t ht
  have hcell : Cell.object cap.object ∈ (Call.write cap offset data).cells p s :=
    Or.inr ⟨cap.object, List.mem_singleton_self _, rfl⟩
  obtain ⟨hepochs, -, hregion⟩ := Agree.object ht (List.mem_singleton_self _)
  have hrange : t.memory.checkedRange t.kernel cap .WRITE offset data.length =
      s.memory.checkedRange s.kernel cap .WRITE offset data.length := by
    simp only [RegionRegistry.checkedRange, Kernel.check_congr hepochs, hregion]
  simp only [System.step, RegionRegistry.write, hrange, hregion]
  cases s.memory.checkedRange s.kernel cap .WRITE offset data.length with
  | error e => exact ⟨rfl, ht.tracks⟩
  | ok range =>
    cases hm : s.memory.regions[cap.object]? with
    | none => exact ⟨rfl, ht.tracks⟩
    | some bytes => exact ⟨rfl, ht.tracks.write (System.writes_region cap.object _) hcell⟩

private theorem update_local (cap : Capability) (f : SliceUpdate Bytes) :
    Local System.view ((Call.update cap f).cells p s) s (·.step (.update cap f)) := by
  intro t ht
  have hcell : Cell.object cap.object ∈ (Call.update cap f).cells p s :=
    Or.inr ⟨cap.object, List.mem_singleton_self _, rfl⟩
  obtain ⟨hepochs, -, hregion⟩ := Agree.object ht (List.mem_singleton_self _)
  simp only [System.step, RegionRegistry.update, Kernel.check_congr hepochs, hregion]
  cases s.kernel.check cap (.READ ||| .WRITE) with
  | error e => exact ⟨rfl, ht.tracks⟩
  | ok u =>
    cases hm : s.memory.regions[cap.object]? with
    | none => exact ⟨rfl, ht.tracks⟩
    | some bytes => exact ⟨rfl, ht.tracks.write (System.writes_region cap.object _) hcell⟩

private theorem destroyRegion_local (cap : Capability) :
    Local System.view ((Call.destroyRegion cap).cells p s) s (·.step (.destroyRegion cap)) := by
  intro t ht
  have hcell : Cell.object cap.object ∈ (Call.destroyRegion cap).cells p s :=
    Or.inr ⟨cap.object, List.mem_singleton_self _, rfl⟩
  obtain ⟨hepochs, -, hregion⟩ := Agree.object ht (List.mem_singleton_self _)
  have hcheck := Kernel.check_congr hepochs .DESTROY
  have hcontains : t.memory.regions.contains cap.object = s.memory.regions.contains cap.object := by
    rw [← Std.ExtTreeMap.isSome_getElem?_eq_contains, ← Std.ExtTreeMap.isSome_getElem?_eq_contains,
      hregion]
  simp only [System.step, RegionRegistry.destroyRegion, hcheck, hcontains]
  rcases s.kernel.check_cases cap .DESTROY with ⟨hc, hl, hd⟩ | ⟨e, he⟩
  · rw [hc] at hcheck
    obtain ⟨hl', hd'⟩ := Kernel.check_eq_ok_iff.mp hcheck
    simp only [hc, Kernel.destroyObject_of_live hl hd, Kernel.destroyObject_of_live hl' hd']
    cases s.memory.regions.contains cap.object with
    | false => exact ⟨rfl, ht.tracks⟩
    | true => exact ⟨rfl, (ht.tracks.write (System.writes_eraseRegion cap.object) hcell).write
        (System.writes_eraseEpoch cap.object) hcell⟩
  · simp only [he]
    exact ⟨trivial, ht.tracks⟩

private theorem recordLocalEvent_local :
    Local System.view ((Call.recordLocalEvent p).cells p s) s (·.step (.recordLocalEvent p)) := by
  intro t ht
  simp only [System.step, System.withProcess, Agree.process ht]
  cases s.sched.process p with
  | none => exact ⟨rfl, ht.tracks⟩
  | some q => exact ⟨rfl, ht.tracks.write (System.writes_setProcess p _) (Or.inl rfl)⟩

private theorem receive_local (channel : Capability) :
    Local System.view ((Call.receive channel p).cells p s) s (·.step (.receive channel p)) := by
  intro t ht
  have hcell : Cell.object channel.object ∈ (Call.receive channel p).cells p s :=
    Or.inr ⟨channel.object, List.mem_singleton_self _, rfl⟩
  obtain ⟨hepochs, hqueue, -⟩ := Agree.object ht (List.mem_singleton_self _)
  have hprocess := Agree.process ht
  simp only [System.step, System.withProcess, hprocess]
  cases hp : s.sched.process p with
  | none => exact ⟨rfl, ht.tracks⟩
  | some q =>
    have hself := ht.tracks.write (System.writes_setProcess p q) (Or.inl rfl)
    simp only [ChannelRegistry.receive, Kernel.check_congr hepochs, hqueue]
    cases s.kernel.check channel .READ with
    | error e => exact ⟨rfl, hself⟩
    | ok u =>
      cases hq : s.channels.queues[channel.object]? with
      | none => exact ⟨rfl, hself⟩
      | some queue =>
        cases queue with
        | nil => exact ⟨rfl, hself⟩
        | cons m queue => exact ⟨rfl, (ht.tracks.write
            (System.writes_queue channel.object queue) hcell).write
              (System.writes_setProcess p _) (Or.inl rfl)⟩

theorem tracks_moveObjects {A : Set Cell} {t₀ : System}
    (h : Tracks System.view A t₀ s t) {batch : List (Grant × Capability)}
    (hmoved : ∀ x ∈ batch, x.1.isMove = true → Cell.object x.2.object ∈ A) :
    Tracks System.view A t₀ { s with kernel := moveObjects s.kernel batch }
      { t with kernel := moveObjects t.kernel batch } := by
  induction batch generalizing s t with
  | nil => exact h
  | cons x batch ih =>
    have hrest := fun y hy => hmoved y (List.mem_cons_of_mem x hy)
    have hfirst : Tracks System.view A t₀ { s with kernel := moveObject s.kernel x }
        { t with kernel := moveObject t.kernel x } := by
      by_cases hm : x.1.isMove = true
      · simp only [moveObject, if_pos hm]
        exact h.write (System.writes_insertEpoch x.2.object (x.2.epoch + 1))
          (hmoved x List.mem_cons_self hm)
      · simp only [moveObject, if_neg hm]
        exact h
    exact ih hfirst hrest

theorem Resolved.names_of_isMove {q : Process} {batch : List (Grant × Capability)}
    (hq : s.sched.process p = some q) (hb : Resolved s.kernel q batch) (channel : Capability)
    (data : Int64) {x : Grant × Capability} (hx : x ∈ batch) (hm : x.1.isMove = true) :
    x.2.object ∈ (Call.send channel p (batch.map Prod.fst) data).names s := by
  obtain ⟨g, cap⟩ := x
  have hgrant := hb.entries _ hx
  cases g with
  | transfer a => cases hm
  | derive a r => cases hm
  | move a =>
    have hcap := (resolveGrant_move_iff.mp hgrant).1
    refine List.mem_cons_of_mem _ (List.mem_filterMap.mpr ⟨.move a, ?_, ?_⟩)
    · exact List.mem_map.mpr ⟨_, hx, rfl⟩
    · simp [hq, Grant.handle, hcap]

private theorem send_local (channel : Capability) (grants : List Grant) (data : Int64) :
    Local System.view ((Call.send channel p grants data).cells p s) s
      (·.step (.send channel p grants data)) := by
  intro t ht
  obtain ⟨hepochs, hqueue, -⟩ := Agree.object ht List.mem_cons_self
  have hcell : Cell.object channel.object ∈ (Call.send channel p grants data).cells p s :=
    Or.inr ⟨channel.object, List.mem_cons_self, rfl⟩
  simp only [System.step, System.withProcess, Agree.process ht]
  cases hp : s.sched.process p with
  | none => exact ⟨rfl, ht.tracks⟩
  | some q =>
    have hself := ht.tracks.write (System.writes_setProcess p q) (Or.inl rfl)
    have hresolve : resolveGrants t.kernel q grants = resolveGrants s.kernel q grants := by
      refine resolveGrants_congr fun g hg cap hcap => (Agree.object ht ?_).1
      refine List.mem_cons_of_mem _ (List.mem_filterMap.mpr ⟨g, hg, ?_⟩)
      rw [hp, Option.bind_some, hcap, Option.map_some]
    have hcheck := Kernel.check_congr hepochs .WRITE
    cases hc : s.kernel.check channel .WRITE with
    | error e =>
      simp only [ChannelRegistry.send, hcheck, hc]
      exact ⟨trivial, hself⟩
    | ok u =>
      cases hq : s.channels.queues[channel.object]? with
      | none =>
        simp only [ChannelRegistry.send, hcheck, hc, hqueue, hq]
        exact ⟨trivial, hself⟩
      | some queue =>
        cases hr : resolveGrants s.kernel q grants with
        | error e =>
          simp only [ChannelRegistry.send, hcheck, hc, hqueue, hq, hresolve, hr]
          exact ⟨trivial, hself⟩
        | ok resolved =>
          rw [hc] at hcheck
          rw [hq] at hqueue
          rw [hr] at hresolve
          obtain ⟨batch, hb, rfl, rfl⟩ := resolveGrants_eq_ok_iff.mp hr
          obtain ⟨batch', hb', hfst, hsnd⟩ := resolveGrants_eq_ok_iff.mp hresolve
          obtain rfl : batch = batch' :=
            (List.zip_of_prod hfst hsnd).trans (List.zip_of_prod rfl rfl).symm
          simp only [ChannelRegistry.send_of_resolved data hc hq hb,
            ChannelRegistry.send_of_resolved data hcheck hqueue hb']
          refine ⟨trivial, ?_⟩
          have hmoved : ∀ x ∈ batch, x.1.isMove = true → Cell.object x.2.object ∈
              (Call.send channel p (batch.map Prod.fst) data).cells p s :=
            fun x hx hm => Or.inr ⟨_, hb.names_of_isMove hp channel data hx hm, rfl⟩
          exact ((tracks_moveObjects ht.tracks hmoved).write
            (System.writes_queue channel.object _) hcell).write
              (System.writes_setProcess p _) (Or.inl rfl)

/-- A call by `p` is local to `p` and the objects it names. -/
theorem Call.By.local {call : Call} (h : call.By p) :
    Local System.view (call.cells p s) s (·.step call) := by
  cases call with
  | send channel sender grants data =>
    obtain rfl : sender = p := h
    exact send_local channel grants data
  | receive channel receiver =>
    obtain rfl : receiver = p := h
    exact receive_local channel
  | recordLocalEvent id =>
    obtain rfl : id = p := h
    exact recordLocalEvent_local
  | derive cap r => exact (access_local cap).1 r
  | revoke cap => exact (kernel_local cap).1
  | reissue cap => exact (kernel_local cap).2.1
  | destroyObject cap => exact (kernel_local cap).2.2
  | read cap offset len => exact (access_local cap).2.1 offset len
  | write cap offset data => exact write_local cap offset data
  | inspect cap f => exact (access_local cap).2.2 f
  | update cap f => exact update_local cap f
  | destroyRegion cap => exact destroyRegion_local cap
  | newObject r => cases h
  | newChannel => cases h
  | newRegion size => cases h
  | spawn initial => cases h
  | spawnChild parent grants => cases h
  | size cap => cases h
  | reclaim => cases h
  | grant id cap => cases h
  | scheduleNext => cases h

end Locality

/-- Calls by different processes that name no common object commute. -/
theorem System.independent_calls_commute (s : System) {p q : ProcessId} (hpq : p ≠ q) {a b : Call}
    (ha : a.By p) (hb : b.By q) (hdisjoint : (a.names s).Disjoint (b.names s)) :
    ((s.step a).2.step b).1 = (s.step b).1 ∧ ((s.step b).2.step a).1 = (s.step a).1 ∧
      ((s.step a).2.step b).2 = ((s.step b).2.step a).2 := by
  refine Local.commute System.view_injective ha.local hb.local (Set.disjoint_left.mpr ?_)
  rintro c (rfl | ⟨o, ho, rfl⟩) (hc | ⟨o', ho', hc⟩)
  · exact hpq (Cell.process.inj hc)
  · cases hc
  · cases hc
  · exact hdisjoint ho (Cell.object.inj hc ▸ ho')

/-- Two processes that hold one region each: the first sends its region off through a channel of
its own while the second writes to its own. -/
theorem System.independent_calls_commute_send :
    let s : System := ((((System.new.step .newChannel).2.step (.newRegion 1)).2.step
      (.newRegion 1)).2.step (.spawn [⟨⟨1⟩, .READ ||| .WRITE ||| .GRANT ||| .DESTROY, 0⟩])).2
    let a : Call := .send ⟨⟨0⟩, .WRITE, 0⟩ ⟨0⟩ [.move ⟨0⟩] 5
    let b : Call := .write ⟨⟨2⟩, .WRITE, 0⟩ 0 [7]
    ((s.step a).2.step b).1 = (s.step b).1 ∧ ((s.step b).2.step a).1 = (s.step a).1 ∧
      ((s.step a).2.step b).2 = ((s.step b).2.step a).2 := by
  intro s a b
  have hnames : a.names s = [⟨0⟩, ⟨1⟩] := by decide +kernel
  refine System.independent_calls_commute s (p := ⟨0⟩) (q := ⟨1⟩) (by decide) rfl trivial ?_
  rw [hnames]
  rintro o ho hwritten
  obtain rfl := List.mem_singleton.mp hwritten
  exact absurd ho (by decide)

end Muaddib
