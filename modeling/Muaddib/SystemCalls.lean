import Muaddib.Channels
import Muaddib.KernelLogs
import Muaddib.LabelledRuns
import Muaddib.MemoryRegions
import Muaddib.Schedulers

/-! # The assembled system and the calls on it

The crates are independent: a client owns a kernel, a scheduler and the two registries and
passes them to each call. The system holds the four together, a call names a process by its
id, and a call that borrows a process mutably writes it back. -/
namespace Muaddib
open LabelledRuns

structure System where
  kernel : Kernel
  sched : Scheduler
  channels : ChannelRegistry
  memory : RegionRegistry
  deriving DecidableEq

/-- The closures of `inspect` and `update` return their results as bytes. -/
inductive Call where
  | newObject (rights : Rights)
  | newChannel
  | newRegion (size : ℕ)
  | derive (cap : Capability) (requested : Rights)
  | revoke (cap : Capability)
  | reissue (cap : Capability)
  | destroyObject (cap : Capability)
  | spawn (initial : List Capability)
  | spawnChild (parent : ProcessId) (grants : List Grant)
  | send (channel : Capability) (sender : ProcessId) (grants : List Grant) (data : Int64)
  | receive (channel : Capability) (receiver : ProcessId)
  | read (cap : Capability) (offset len : ℕ)
  | write (cap : Capability) (offset : ℕ) (data : Bytes)
  | inspect (cap : Capability) (f : Bytes → Bytes)
  | update (cap : Capability) (f : SliceUpdate Bytes)
  | size (cap : Capability)
  | destroyRegion (cap : Capability)
  | reclaim
  | recordLocalEvent (process : ProcessId)
  | grant (process : ProcessId) (cap : Capability)
  | scheduleNext

inductive ApiError where
  | capability (error : CapError)
  | process (error : ProcessError)
  | ipc (error : IpcError)
  | memory (error : MemoryError)
  | noProcess (id : ProcessId)
  deriving DecidableEq, Repr

inductive Value where
  | done
  | capability (cap : Capability)
  | process (id : ProcessId)
  | stamp (stamp : EventStamp)
  | delivery (delivery : Option Delivery)
  | bytes (bytes : Bytes)
  | count (n : ℕ)
  | handle (handle : Handle)
  | turn (process : Option ProcessId)
  deriving DecidableEq

abbrev Outcome := Except (Stop ApiError) Value

/-- The outcome of a function that returns an `Err` or a value. -/
def returning {ε α : Type} (wrap : ε → ApiError) (value : α → Value) : Except ε α → Outcome
  | .ok a => .ok (value a)
  | .error e => .error (.err (wrap e))

def stopping {ε α : Type} (wrap : ε → ApiError) (value : α → Value) : Except (Stop ε) α → Outcome
  | .ok a => .ok (value a)
  | .error (.err e) => .error (.err (wrap e))
  | .error (.panic message) => .error (.panic message)

namespace System

def new : System := ⟨.new, .new, .new, .new⟩

/-- Runs `f` on a process of the scheduler and writes it back. -/
def withProcess (s : System) (id : ProcessId) (f : Process → Outcome × System) : Outcome × System :=
  match s.sched.process id with
  | none => (.error (.err (.noProcess id)), s)
  | some p => f p

def setProcess (s : System) (id : ProcessId) (p : Process) : System :=
  { s with sched := s.sched.setProcess id p }

def step (s : System) : Call → Outcome × System
  | .newObject rights =>
    let (cap, kernel) := s.kernel.newObject rights
    (.ok (.capability cap), { s with kernel })
  | .newChannel =>
    let (cap, channels, kernel) := s.channels.newChannel s.kernel
    (.ok (.capability cap), { s with channels, kernel })
  | .newRegion size =>
    let (result, memory, kernel) := s.memory.newRegion s.kernel size
    (stopping Empty.elim .capability result, { s with memory, kernel })
  | .derive cap requested => (returning .capability .capability (s.kernel.derive cap requested), s)
  | .revoke cap =>
    let (result, kernel) := s.kernel.revoke cap
    (stopping .capability (fun _ => .done) result, { s with kernel })
  | .reissue cap =>
    let (result, kernel) := s.kernel.reissue cap
    (stopping .capability .capability result, { s with kernel })
  | .destroyObject cap =>
    let (result, kernel) := s.kernel.destroyObject cap
    (returning .capability (fun _ => .done) result, { s with kernel })
  | .spawn initial =>
    let (id, sched) := s.sched.spawn initial
    (.ok (.process id), { s with sched })
  | .spawnChild parent grants =>
    let (result, sched, kernel) := s.sched.spawnChild s.kernel parent grants
    (stopping .process .process result, { s with sched, kernel })
  | .send channel sender grants data => s.withProcess sender fun p =>
    let (result, channels, kernel, p) := s.channels.send s.kernel channel p grants data
    (stopping .ipc .stamp result, { s with channels, kernel }.setProcess sender p)
  | .receive channel receiver => s.withProcess receiver fun p =>
    let (result, channels, p) := s.channels.receive s.kernel channel p
    (returning .ipc .delivery result, { s with channels }.setProcess receiver p)
  | .read cap offset len => (stopping .memory .bytes (s.memory.read s.kernel cap offset len), s)
  | .write cap offset data =>
    let (result, memory) := s.memory.write s.kernel cap offset data
    (stopping .memory (fun _ => .done) result, { s with memory })
  | .inspect cap f => (returning .memory .bytes (s.memory.inspect s.kernel cap f), s)
  | .update cap f =>
    let (result, memory) := s.memory.update s.kernel cap f
    (returning .memory .bytes result, { s with memory })
  | .size cap => (stopping .memory .count (s.memory.size s.kernel cap), s)
  | .destroyRegion cap =>
    let (result, memory, kernel) := s.memory.destroyRegion s.kernel cap
    (returning .memory (fun _ => .done) result, { s with memory, kernel })
  | .reclaim =>
    let (n, memory) := s.memory.reclaim s.kernel
    (.ok (.count n), { s with memory })
  | .recordLocalEvent id => s.withProcess id fun p =>
    let (stamp, p) := p.recordLocalEvent
    (.ok (.stamp stamp), s.setProcess id p)
  | .grant id cap => s.withProcess id fun p =>
    let (handle, p) := p.grant cap
    (.ok (.handle handle), s.setProcess id p)
  | .scheduleNext =>
    let (turn, sched) := s.sched.scheduleNext
    (.ok (.turn turn), { s with sched })

theorem setProcess_self {s : System} {id : ProcessId} {p : Process}
    (h : s.sched.process id = some p) : s.setProcess id p = s := by
  have hs : s.sched.processes.insert id p = s.sched.processes := FiniteMaps.insert_of_getElem? _ h
  simp [setProcess, Scheduler.setProcess, hs]

end System

/-- Everything a call can do to a system: either it fails and changes nothing, or it has the
effect of its kind, under the conditions the code checked. Only `newRegion` can panic. -/
inductive Effect (s : System) : Call → Outcome → System → Prop where
  | failed (call : Call) (e : ApiError) : Effect s call (.error (.err e)) s
  | newObject (r : Rights) : Effect s (.newObject r) (.ok (.capability (s.kernel.newObject r).1))
      { s with kernel := (s.kernel.newObject r).2 }
  | newChannel : Effect s .newChannel (.ok (.capability (s.channels.newChannel s.kernel).1))
      { s with channels := (s.channels.newChannel s.kernel).2.1
               kernel := (s.channels.newChannel s.kernel).2.2 }
  | newRegion {size : ℕ} (fits : size < 2 ^ 63) : Effect s (.newRegion size)
      (.ok (.capability (s.kernel.newObject fullRights).1))
      { s with memory := ⟨s.memory.regions.insert ⟨s.kernel.nextId⟩ (List.replicate size 0)⟩
               kernel := (s.kernel.newObject fullRights).2 }
  | overflowed {size : ℕ} (large : 2 ^ 63 ≤ size) : Effect s (.newRegion size)
      (.error (.panic "capacity overflow"))
      { s with kernel := (s.kernel.newObject fullRights).2 }
  | derived {held : Capability} {r : Rights} (live : s.kernel.Live held)
      (grant : held.rights.contains .GRANT = true) (sub : held.rights.contains r = true) :
      Effect s (.derive held r) (.ok (.capability ⟨held.object, r, held.epoch⟩)) s
  | revoked {held : Capability} (live : s.kernel.Live held)
      (destroy : held.rights.contains .DESTROY = true) :
      Effect s (.revoke held) (.ok .done) { s with kernel := s.kernel.bump held.object held.epoch }
  | reissued {held : Capability} (live : s.kernel.Live held)
      (destroy : held.rights.contains .DESTROY = true) :
      Effect s (.reissue held) (.ok (.capability ⟨held.object, held.rights, held.epoch + 1⟩))
        { s with kernel := s.kernel.bump held.object held.epoch }
  | destroyedObject {held : Capability} (live : s.kernel.Live held)
      (destroy : held.rights.contains .DESTROY = true) :
      Effect s (.destroyObject held) (.ok .done) { s with kernel := s.kernel.remove held.object }
  | spawned (initial : List Capability) :
      Effect s (.spawn initial) (.ok (.process ⟨s.sched.nextProcessId⟩))
        { s with sched := (s.sched.spawn initial).2 }
  | spawnedChild {parent : ProcessId} {p : Process} {batch : List (Grant × Capability)}
      (held : s.sched.process parent = some p) (resolved : Resolved s.kernel p batch) :
      Effect s (.spawnChild parent (batch.map Prod.fst)) (.ok (.process ⟨s.sched.nextProcessId⟩))
        { s with
          sched := (s.sched.setProcess parent (p.depart batch)).freshId.2.enlist
            ⟨s.sched.nextProcessId⟩
            (Scheduler.newborn ⟨s.sched.nextProcessId⟩ p.clock.sendEvent.1 (batch.map deliver))
          kernel := moveObjects s.kernel batch }
  | sent {channel : Capability} {sender : ProcessId} {p : Process} {queue : List Message}
      {batch : List (Grant × Capability)} (data : Int64) (held : s.sched.process sender = some p)
      (live : s.kernel.Live channel) (queued : s.channels.queues[channel.object]? = some queue)
      (resolved : Resolved s.kernel p batch) :
      Effect s (.send channel sender (batch.map Prod.fst) data) (.ok (.stamp p.clock.sendEvent.1))
        { s with
          channels := ⟨s.channels.queues.insert channel.object
            (queue ++ [⟨data, batch.map deliver, p.clock.sendEvent.1⟩])⟩
          kernel := moveObjects s.kernel batch
          sched := s.sched.setProcess sender (p.depart batch) }
  | receivedNothing {channel : Capability} {receiver : ProcessId} (live : s.kernel.Live channel)
      (queued : s.channels.queues[channel.object]? = some []) :
      Effect s (.receive channel receiver) (.ok (.delivery none)) s
  | received {channel : Capability} {receiver : ProcessId} {p : Process} {m : Message}
      {queue : List Message} (held : s.sched.process receiver = some p)
      (live : s.kernel.Live channel)
      (queued : s.channels.queues[channel.object]? = some (m :: queue)) :
      Effect s (.receive channel receiver)
        (.ok (.delivery (some ⟨m.data, (p.grantAll m.capabilities).1, m.sentAt,
          (p.clock.receiveEvent m.sentAt).1⟩)))
        { s with
          channels := ⟨s.channels.queues.insert channel.object queue⟩
          sched := s.sched.setProcess receiver
            ((p.grantAll m.capabilities).2.recordReceive m.sentAt).2 }
  | read {cap : Capability} (offset len : ℕ) (bytes : Bytes) (live : s.kernel.Live cap) :
      Effect s (.read cap offset len) (.ok (.bytes bytes)) s
  | wrote {cap : Capability} (offset : ℕ) (data bytes : Bytes) (live : s.kernel.Live cap) :
      Effect s (.write cap offset data) (.ok .done)
        { s with memory := ⟨s.memory.regions.insert cap.object bytes⟩ }
  | inspected {cap : Capability} (f : Bytes → Bytes) (bytes : Bytes) (live : s.kernel.Live cap) :
      Effect s (.inspect cap f) (.ok (.bytes bytes)) s
  | updated {cap : Capability} (f : SliceUpdate Bytes) (result bytes : Bytes)
      (live : s.kernel.Live cap) : Effect s (.update cap f) (.ok (.bytes result))
        { s with memory := ⟨s.memory.regions.insert cap.object bytes⟩ }
  | sized {cap : Capability} (n : ℕ) (live : s.kernel.Live cap) :
      Effect s (.size cap) (.ok (.count n)) s
  | destroyedRegion {cap : Capability} (live : s.kernel.Live cap)
      (destroy : cap.rights.contains .DESTROY = true) :
      Effect s (.destroyRegion cap) (.ok .done)
        { s with memory := ⟨s.memory.regions.erase cap.object⟩
                 kernel := s.kernel.remove cap.object }
  | reclaimed : Effect s .reclaim (.ok (.count (s.memory.reclaim s.kernel).1))
      { s with memory := (s.memory.reclaim s.kernel).2 }
  | recorded {id : ProcessId} {p : Process} (held : s.sched.process id = some p) :
      Effect s (.recordLocalEvent id) (.ok (.stamp p.recordLocalEvent.1))
        (s.setProcess id p.recordLocalEvent.2)
  | granted {id : ProcessId} {p : Process} (cap : Capability)
      (held : s.sched.process id = some p) :
      Effect s (.grant id cap) (.ok (.handle (p.grant cap).1)) (s.setProcess id (p.grant cap).2)
  | turn : Effect s .scheduleNext (.ok (.turn s.sched.scheduleNext.1))
      { s with sched := s.sched.scheduleNext.2 }

section StepCases
variable (s : System)

attribute [local simp] System.step

private theorem kernel_effect (cap : Capability) :
    Effect s (.revoke cap) (s.step (.revoke cap)).1 (s.step (.revoke cap)).2 ∧
    Effect s (.reissue cap) (s.step (.reissue cap)).1 (s.step (.reissue cap)).2 ∧
    Effect s (.destroyObject cap) (s.step (.destroyObject cap)).1
      (s.step (.destroyObject cap)).2 := by
  rcases s.kernel.check_cases cap .DESTROY with ⟨-, hl, hd⟩ | ⟨e, he⟩
  · simp only [System.step, Kernel.revoke_of_live hl hd, Kernel.reissue_of_live hl hd,
      Kernel.destroyObject_of_live hl hd, stopping, returning]
    exact ⟨.revoked hl hd, .reissued hl hd, .destroyedObject hl hd⟩
  · simp only [System.step, Kernel.revoke_of_error he, Kernel.reissue_of_error he,
      Kernel.destroyObject_of_error he, stopping, returning]
    exact ⟨.failed _ _, .failed _ _, .failed _ _⟩

private theorem newRegion_effect (size : ℕ) :
    Effect s (.newRegion size) (s.step (.newRegion size)).1 (s.step (.newRegion size)).2 := by
  rcases Nat.lt_or_ge size (2 ^ 63) with hsize | hsize
  · simp only [System.step, RegionRegistry.newRegion_of_lt hsize, stopping]
    exact .newRegion hsize
  · simp only [System.step, RegionRegistry.newRegion_of_le hsize, stopping]
    exact .overflowed hsize

private theorem derive_effect (cap : Capability) (r : Rights) :
    Effect s (.derive cap r) (s.step (.derive cap r)).1 (s.step (.derive cap r)).2 := by
  cases hd : s.kernel.derive cap r with
  | error e =>
    simp only [System.step, hd, returning]
    exact .failed _ _
  | ok c =>
    obtain ⟨hl, hg, hr, rfl⟩ := Kernel.derive_eq_ok_iff.mp hd
    simp only [System.step, hd, returning]
    exact .derived hl hg hr

private theorem spawnChild_effect (parent : ProcessId) (grants : List Grant) :
    Effect s (.spawnChild parent grants) (s.step (.spawnChild parent grants)).1
      (s.step (.spawnChild parent grants)).2 := by
  rcases s.sched.spawnChild_cases s.kernel parent grants with
    ⟨e, he⟩ | ⟨p, batch, hp, hb, rfl, hok⟩
  · simp only [System.step, he, stopping]
    exact .failed _ _
  · simp only [System.step, hok, stopping]
    exact .spawnedChild hp hb

private theorem send_effect (channel : Capability) (sender : ProcessId) (grants : List Grant)
    (data : Int64) : Effect s (.send channel sender grants data)
      (s.step (.send channel sender grants data)).1
      (s.step (.send channel sender grants data)).2 := by
  cases hp : s.sched.process sender with
  | none =>
    simp only [System.step, System.withProcess, hp]
    exact .failed _ _
  | some p =>
    rcases s.channels.send_cases s.kernel channel p grants data with
      ⟨e, he⟩ | ⟨queue, batch, hc, hq, hb, rfl, hok⟩
    · simp only [System.step, System.withProcess, hp, he, stopping, System.setProcess_self hp]
      exact .failed _ _
    · simp only [System.step, System.withProcess, hp, hok, stopping]
      exact .sent data hp (Kernel.check_eq_ok_iff.mp hc).1 hq hb

private theorem receive_effect (channel : Capability) (receiver : ProcessId) :
    Effect s (.receive channel receiver) (s.step (.receive channel receiver)).1
      (s.step (.receive channel receiver)).2 := by
  cases hp : s.sched.process receiver with
  | none =>
    simp only [System.step, System.withProcess, hp]
    exact .failed _ _
  | some p =>
    rcases s.channels.receive_cases s.kernel channel p with
      ⟨e, he⟩ | ⟨hc, hq, hok⟩ | ⟨m, queue, hc, hq, hok⟩
    · simp only [System.step, System.withProcess, hp, he, returning, System.setProcess_self hp]
      exact .failed _ _
    · simp only [System.step, System.withProcess, hp, hok, returning, System.setProcess_self hp]
      exact .receivedNothing (Kernel.check_eq_ok_iff.mp hc).1 hq
    · simp only [System.step, System.withProcess, hp, hok, returning]
      exact .received hp (Kernel.check_eq_ok_iff.mp hc).1 hq

private theorem read_effect (cap : Capability) (offset len : ℕ) :
    Effect s (.read cap offset len) (s.step (.read cap offset len)).1
      (s.step (.read cap offset len)).2 := by
  rcases s.memory.read_cases s.kernel cap offset len with ⟨e, he⟩ | ⟨bytes, hc, -, -, hok⟩
  · simp only [System.step, he, stopping]
    exact .failed _ _
  · simp only [System.step, hok, stopping]
    exact .read _ _ _ (Kernel.check_eq_ok_iff.mp hc).1

private theorem write_effect (cap : Capability) (offset : ℕ) (data : Bytes) :
    Effect s (.write cap offset data) (s.step (.write cap offset data)).1
      (s.step (.write cap offset data)).2 := by
  rcases s.memory.write_cases s.kernel cap offset data with ⟨e, he⟩ | ⟨bytes, hc, -, -, hok⟩
  · simp only [System.step, he, stopping]
    exact .failed _ _
  · simp only [System.step, hok, stopping]
    exact .wrote _ _ _ (Kernel.check_eq_ok_iff.mp hc).1

private theorem inspect_effect (cap : Capability) (f : Bytes → Bytes) :
    Effect s (.inspect cap f) (s.step (.inspect cap f)).1 (s.step (.inspect cap f)).2 := by
  rcases s.memory.inspect_cases s.kernel cap f with ⟨e, he⟩ | ⟨bytes, hc, -, hok⟩
  · simp only [System.step, he, returning]
    exact .failed _ _
  · simp only [System.step, hok, returning]
    exact .inspected _ _ (Kernel.check_eq_ok_iff.mp hc).1

private theorem update_effect (cap : Capability) (f : SliceUpdate Bytes) :
    Effect s (.update cap f) (s.step (.update cap f)).1 (s.step (.update cap f)).2 := by
  rcases s.memory.update_cases s.kernel cap f with ⟨e, he⟩ | ⟨bytes, hc, -, hok⟩
  · simp only [System.step, he, returning]
    exact .failed _ _
  · simp only [System.step, hok, returning]
    exact .updated _ _ _ (Kernel.check_eq_ok_iff.mp hc).1

private theorem size_effect (cap : Capability) :
    Effect s (.size cap) (s.step (.size cap)).1 (s.step (.size cap)).2 := by
  rcases s.memory.size_cases s.kernel cap with ⟨e, he⟩ | ⟨bytes, hc, -, hok⟩
  · simp only [System.step, he, stopping]
    exact .failed _ _
  · simp only [System.step, hok, stopping]
    exact .sized _ (Kernel.check_eq_ok_iff.mp hc).1

private theorem destroyRegion_effect (cap : Capability) :
    Effect s (.destroyRegion cap) (s.step (.destroyRegion cap)).1
      (s.step (.destroyRegion cap)).2 := by
  rcases s.memory.destroyRegion_cases s.kernel cap with ⟨e, he⟩ | ⟨hc, -, hok⟩
  · simp only [System.step, he, returning]
    exact .failed _ _
  · obtain ⟨hl, hd⟩ := Kernel.check_eq_ok_iff.mp hc
    simp only [System.step, hok, returning]
    exact .destroyedRegion hl hd

/-- Every call has its effect. The later invariants are case analyses over `Effect`. -/
theorem System.step_effect (call : Call) : Effect s call (s.step call).1 (s.step call).2 := by
  cases call with
  | newObject r => exact .newObject r
  | newChannel => exact .newChannel
  | newRegion size => exact newRegion_effect s size
  | derive cap r => exact derive_effect s cap r
  | revoke cap => exact (kernel_effect s cap).1
  | reissue cap => exact (kernel_effect s cap).2.1
  | destroyObject cap => exact (kernel_effect s cap).2.2
  | spawn initial => exact .spawned initial
  | spawnChild parent grants => exact spawnChild_effect s parent grants
  | send channel sender grants data => exact send_effect s channel sender grants data
  | receive channel receiver => exact receive_effect s channel receiver
  | read cap offset len => exact read_effect s cap offset len
  | write cap offset data => exact write_effect s cap offset data
  | inspect cap f => exact inspect_effect s cap f
  | update cap f => exact update_effect s cap f
  | size cap => exact size_effect s cap
  | destroyRegion cap => exact destroyRegion_effect s cap
  | reclaim => exact .reclaimed
  | recordLocalEvent id =>
    cases hp : s.sched.process id with
    | none =>
      simp only [System.step, System.withProcess, hp]
      exact .failed _ _
    | some p =>
      simp only [System.step, System.withProcess, hp]
      exact .recorded hp
  | grant id cap =>
    cases hp : s.sched.process id with
    | none =>
      simp only [System.step, System.withProcess, hp]
      exact .failed _ _
    | some p =>
      simp only [System.step, System.withProcess, hp]
      exact .granted cap hp
  | scheduleNext => exact .turn

end StepCases

/-- A call that fails, or a receive that finds nothing, leaves the whole system as it was: the
kernel's counter and epochs, every table, counter and clock, the ready queue, every channel
queue and every region. The one call that can panic is an allocation above `isize::MAX`. -/
theorem System.failure_atomic (s : System) (call : Call)
    (h : (∃ e, (s.step call).1 = .error e) ∨ (s.step call).1 = .ok (.delivery none)) :
    (s.step call).2 = s ∨ ∃ size, 2 ^ 63 ≤ size ∧ call = .newRegion size ∧
      (s.step call).1 = .error (.panic "capacity overflow") := by
  have heffect := s.step_effect call
  generalize (s.step call).1 = outcome at h heffect
  generalize (s.step call).2 = s' at heffect
  cases heffect with
  | failed call e => exact Or.inl rfl
  | receivedNothing live queued => exact Or.inl rfl
  | derived live grant sub => exact Or.inl rfl
  | read offset len bytes live => exact Or.inl rfl
  | inspected f bytes live => exact Or.inl rfl
  | sized n live => exact Or.inl rfl
  | overflowed large => exact Or.inr ⟨_, large, rfl, rfl⟩
  | _ => simp at h

/-- A batch whose second entry names no handle costs the parent nothing. -/
theorem System.failure_atomic_batch :
    let s := final System.step .new [.newObject .ALL, .spawn [⟨⟨0⟩, .ALL, 0⟩]]
    (s.step (.spawnChild ⟨0⟩ [.transfer ⟨0⟩, .move ⟨7⟩])).2 = s := by
  intro s
  have hfail : (s.step (.spawnChild ⟨0⟩ [.transfer ⟨0⟩, .move ⟨7⟩])).1 =
      .error (.err (.process (.grant .unknownHandle))) := by decide +kernel
  rcases s.failure_atomic _ (Or.inl ⟨_, hfail⟩) with h | ⟨size, -, hcall, -⟩
  · exact h
  · cases hcall

end Muaddib
