import Muaddib.BatchOrders
import Muaddib.SystemHistories

/-! # What a channel owes to a capability, and what it hides without one

Two laws about one channel: who lacks authority over it learns nothing from it, and who has
authority keeps it across a send. The registry breaks each in one case: `queue_len` consults
no kernel, and a batch may move the channel it travels over. -/
namespace Muaddib
open LabelledRuns

/-- The operations of `ChannelRegistry` that take a channel capability. -/
inductive ChannelCall where
  | send (sender : ProcessId) (grants : List Grant) (data : Int64)
  | receive (receiver : ProcessId)
  | queueLen

inductive ChannelAnswer where
  | outcome (outcome : Outcome)
  | length (n : Option ℕ)
  deriving DecidableEq

namespace System

def onChannel (s : System) (channel : Capability) : ChannelCall → ChannelAnswer × System
  | .send sender grants data =>
    let (outcome, s) := s.step (.send channel sender grants data)
    (.outcome outcome, s)
  | .receive receiver =>
    let (outcome, s) := s.step (.receive channel receiver)
    (.outcome outcome, s)
  | .queueLen => (.length (s.channels.queueLen channel), s)

/-- `s'` is `s` with other messages queued on `c`. -/
structure DiffersOn (c : ObjectId) (queue queue' : List Message) (s s' : System) : Prop where
  queued : s.channels.queues[c]? = some queue
  replaced : s' = { s with channels := ⟨s.channels.queues.insert c queue'⟩ }

/-- The capability is dead, or gives neither end of a channel. -/
def Powerless (s : System) (cap : Capability) : Prop :=
  ¬s.kernel.Live cap ∨ cap.rights.contains .READ = false ∧ cap.rights.contains .WRITE = false

/-- The operation answers the same in both states and leaves both as they are. -/
def Opaque (s s' : System) (cap : Capability) (call : ChannelCall) : Prop :=
  (s.onChannel cap call).1 = (s'.onChannel cap call).1 ∧
    (s.onChannel cap call).2 = s ∧ (s'.onChannel cap call).2 = s'

end System

theorem Kernel.check_of_lacking {k : Kernel} {cap : Capability} {r : Rights}
    (h : ¬k.Live cap ∨ cap.rights.contains r = false) : ∃ e, k.check cap r = .error e := by
  rcases k.check_cases cap r with ⟨-, hl, hr⟩ | he
  · rcases h with h | h
    · exact absurd hl h
    · rw [hr] at h
      cases h
  · exact he

theorem System.Powerless.check_error {s : System} {cap : Capability} (h : s.Powerless cap) :
    (∃ e, s.kernel.check cap .READ = .error e) ∧ ∃ e, s.kernel.check cap .WRITE = .error e :=
  ⟨Kernel.check_of_lacking (h.imp_right And.left), Kernel.check_of_lacking (h.imp_right And.right)⟩

theorem ChannelRegistry.send_of_check_error {k : Kernel} {cap : Capability} {e : CapError}
    (h : k.check cap .WRITE = .error e) (reg : ChannelRegistry) (p : Process)
    (grants : List Grant) (data : Int64) :
    reg.send k cap p grants data = (.error (.err (.capability e)), reg, k, p) := by
  simp [send, h]

theorem ChannelRegistry.receive_of_check_error {k : Kernel} {cap : Capability} {e : CapError}
    (h : k.check cap .READ = .error e) (reg : ChannelRegistry) (p : Process) :
    reg.receive k cap p = (.error (.capability e), reg, p) := by
  simp [receive, h]

namespace System
variable {s s' : System} {cap : Capability}

theorem step_send_of_check_error {e : CapError} (h : s.kernel.check cap .WRITE = .error e)
    (sender : ProcessId) (grants : List Grant) (data : Int64) :
    s.step (.send cap sender grants data) =
      (if s.sched.process sender = none then .error (.err (.noProcess sender))
        else .error (.err (.ipc (.capability e))), s) := by
  cases hp : s.sched.process sender with
  | none => simp [step, withProcess, hp]
  | some p =>
    simp only [step, withProcess, hp, ChannelRegistry.send_of_check_error h, stopping,
      setProcess_self hp]
    rfl

theorem step_receive_of_check_error {e : CapError} (h : s.kernel.check cap .READ = .error e)
    (receiver : ProcessId) :
    s.step (.receive cap receiver) =
      (if s.sched.process receiver = none then .error (.err (.noProcess receiver))
        else .error (.err (.ipc (.capability e))), s) := by
  cases hp : s.sched.process receiver with
  | none => simp [step, withProcess, hp]
  | some p =>
    simp only [step, withProcess, hp, ChannelRegistry.receive_of_check_error h, returning,
      setProcess_self hp]
    rfl

/-- Without authority over a channel its messages cannot be told apart by `send` and `receive`,
and by `queue_len` exactly when the two queues have different lengths. -/
theorem channel_opaque_iff {c : ObjectId} {queue queue' : List Message}
    (differs : DiffersOn c queue queue' s s') (names : cap.object = c)
    (powerless : s.Powerless cap) (call : ChannelCall) :
    Opaque s s' cap call ↔ (call = .queueLen → queue.length = queue'.length) := by
  obtain ⟨hq, rfl⟩ := differs
  obtain ⟨⟨e, he⟩, ⟨e', he'⟩⟩ := powerless.check_error
  cases call with
  | send sender grants data =>
    have hs := step_send_of_check_error he' sender grants data
    have hs' := step_send_of_check_error (s := { s with channels := ⟨s.channels.queues.insert c queue'⟩ })
      he' sender grants data
    simp [Opaque, onChannel, hs, hs']
  | receive receiver =>
    have hs := step_receive_of_check_error he receiver
    have hs' := step_receive_of_check_error (s := { s with channels := ⟨s.channels.queues.insert c queue'⟩ })
      he receiver
    simp [Opaque, onChannel, hs, hs']
  | queueLen =>
    have hl : s.channels.queueLen cap = some queue.length := by
      simp [ChannelRegistry.queueLen, names, hq]
    have hl' : ChannelRegistry.queueLen ⟨s.channels.queues.insert c queue'⟩ cap =
        some queue'.length := by
      simp [ChannelRegistry.queueLen, names]
    simp [Opaque, onChannel, hl, hl']

end System

/-- Two clients that differ in one send, each revoking its channel afterwards. -/
private def revokedCalls (first : Call) : List Call :=
  [.newChannel, .spawn [], first, .revoke ⟨⟨0⟩, .READ ||| .WRITE ||| .GRANT ||| .DESTROY, 0⟩]

private def quiet : System := final System.step .new (revokedCalls (.recordLocalEvent ⟨0⟩))

private def spoken : System := final System.step .new
  (revokedCalls (.send ⟨⟨0⟩, .READ ||| .WRITE ||| .GRANT ||| .DESTROY, 0⟩ ⟨0⟩ [] 7))

private theorem quiet_spoken : System.DiffersOn ⟨0⟩ []
    [⟨7, [], (EventClock.new ⟨0⟩).sendEvent.1⟩] quiet spoken :=
  ⟨by decide +kernel, by decide +kernel⟩

private theorem quiet_spoken_revoked :
    quiet.Powerless ⟨⟨0⟩, .READ ||| .WRITE ||| .GRANT ||| .DESTROY, 0⟩ := Or.inl (by decide +kernel)

/-- A revoked capability receives the same refusal before and after the message was queued. -/
theorem System.channel_opaque_iff_receive : System.Opaque quiet spoken
    ⟨⟨0⟩, .READ ||| .WRITE ||| .GRANT ||| .DESTROY, 0⟩ (.receive ⟨0⟩) := by
  refine (System.channel_opaque_iff quiet_spoken rfl quiet_spoken_revoked _).mpr ?_
  intro h
  cases h

/-- A revoked capability still counts the messages that its channel holds. -/
theorem System.channel_leaks : ¬∀ (tr tr' : List SystemEntry) (s s' : System) (c : ObjectId)
    (queue queue' : List Message) (cap : Capability) (call : ChannelCall),
    SystemRun tr s → SystemRun tr' s' → System.DiffersOn c queue queue' s s' → cap.object = c →
      s.Powerless cap → System.Opaque s s' cap call := by
  intro hclaim
  have hquiet : SystemRun (trace System.step .new (revokedCalls (.recordLocalEvent ⟨0⟩))) quiet :=
    Run.of_calls (by decide +kernel)
  have hspoken : SystemRun (trace System.step .new (revokedCalls
      (.send ⟨⟨0⟩, .READ ||| .WRITE ||| .GRANT ||| .DESTROY, 0⟩ ⟨0⟩ [] 7))) spoken :=
    Run.of_calls (by decide +kernel)
  have hopaque := hclaim _ _ _ _ _ _ _ _ .queueLen hquiet hspoken quiet_spoken rfl quiet_spoken_revoked
  exact absurd hopaque.1 (by decide +kernel)

namespace System

/-- Every capability that could receive on the channel before still can, and drains what is
queued, oldest message first. -/
def StaysOpen (s s' : System) (channel : ObjectId) : Prop :=
  ∀ cap, cap.object = channel → s.kernel.check cap .READ = .ok () →
    s'.kernel.check cap .READ = .ok () ∧
    ∀ receiver queue, s'.sched.process receiver ≠ none → s'.channels.queues[channel]? = some queue →
      List.Forall₂ (fun m e => ∃ d, e.outcome = .ok (.delivery (some d)) ∧ d.data = m.data ∧
        d.sentAt = m.sentAt) queue
        (trace step s' (List.replicate queue.length (.receive cap receiver)))

/-- One receive takes the oldest message and leaves the kernel and the receiver in place. -/
theorem step_receive_of_cons {s : System} {cap : Capability} {receiver : ProcessId} {p : Process}
    {m : Message} {queue : List Message} (hc : s.kernel.check cap .READ = .ok ())
    (hp : s.sched.process receiver = some p) (hq : s.channels.queues[cap.object]? = some (m :: queue)) :
    ∃ d s', s.step (.receive cap receiver) = (.ok (.delivery (some d)), s') ∧ d.data = m.data ∧
      d.sentAt = m.sentAt ∧ s'.kernel = s.kernel ∧ s'.sched.process receiver ≠ none ∧
      s'.channels.queues[cap.object]? = some queue := by
  simp only [step, withProcess, hp, ChannelRegistry.receive_of_cons hc hq, returning]
  refine ⟨_, _, rfl, rfl, rfl, rfl, ?_, ?_⟩
  · simp [setProcess, process_setProcess]
  · exact (FiniteMaps.getElem?_insert ..).trans (if_pos rfl)

theorem receives_drain {cap : Capability} {receiver : ProcessId} (queue : List Message) {s : System}
    (hc : s.kernel.check cap .READ = .ok ()) (hp : s.sched.process receiver ≠ none)
    (hq : s.channels.queues[cap.object]? = some queue) :
    List.Forall₂ (fun m e => ∃ d, e.outcome = .ok (.delivery (some d)) ∧ d.data = m.data ∧
      d.sentAt = m.sentAt) queue
      (trace step s (List.replicate queue.length (.receive cap receiver))) := by
  induction queue generalizing s with
  | nil => exact .nil
  | cons m queue ih =>
    obtain ⟨p, hp⟩ := Option.ne_none_iff_exists'.mp hp
    obtain ⟨d, s', hstep, hdata, hsent, hkernel, hprocess, hqueue⟩ := step_receive_of_cons hc hp hq
    rw [List.length_cons, List.replicate_succ, trace, entry, hstep]
    exact .cons ⟨d, rfl, hdata, hsent⟩ (ih (by rwa [hkernel]) hprocess hqueue)

end System

/-- The checks of an object survive a batch exactly when the batch does not move it. -/
theorem Resolved.checks_survive_iff {k : Kernel} {p : Process} {batch : List (Grant × Capability)}
    (h : Resolved k p batch) {channel : Capability} (live : k.Live channel) :
    (∀ cap : Capability, cap.object = channel.object → k.check cap .READ = .ok () →
      (moveObjects k batch).check cap .READ = .ok ()) ↔
      ¬p.Moves (batch.map Prod.fst) channel.object := by
  rw [h.moves_iff]
  constructor
  · intro hkeep ⟨x, hx, hm, ho⟩
    let reader : Capability := ⟨channel.object, .READ, channel.epoch⟩
    have hread : reader.rights.contains .READ = true := Rights.contains_refl .READ
    have hafter : (moveObjects k batch).Live reader :=
      (Kernel.check_eq_ok_iff.mp (hkeep reader rfl (Kernel.check_eq_ok_iff.mpr ⟨live, hread⟩))).1
    have hmoved := moveObjects_epochs_of_mem h.movable hx hm
    have hlive : k.Live x.2 := (h.movable.1 x hx hm).1
    simp only [Kernel.Live, ho] at hafter hmoved hlive live
    have hepoch : channel.epoch = x.2.epoch := Option.some.inj (live.symm.trans hlive)
    have hnext : channel.epoch = x.2.epoch + 1 := Option.some.inj (hafter.symm.trans hmoved)
    rw [hepoch] at hnext
    simp at hnext
  · intro hnone cap ho hc
    rwa [Kernel.check_congr]
    apply moveObjects_epochs_of_notMem
    intro x hx hm hobj
    exact hnone ⟨x, hx, hm, hobj.trans ho⟩

/-- A successful send leaves its channel open to everyone it was open to exactly when the batch
does not move the channel itself. -/
theorem System.send_keeps_channel_open_iff {s : System} {channel : Capability} {sender : ProcessId}
    {p : Process} {grants : List Grant} {data : Int64} {v : Value}
    (held : s.sched.process sender = some p)
    (sent : (s.step (.send channel sender grants data)).1 = .ok v) :
    s.StaysOpen (s.step (.send channel sender grants data)).2 channel.object ↔
      ¬p.Moves grants channel.object := by
  rcases s.channels.send_cases s.kernel channel p grants data with
    ⟨e, he⟩ | ⟨queue, batch, hc, hq, hb, rfl, hok⟩
  · simp only [step, withProcess, held, he, stopping] at sent
    cases sent
  · rw [← hb.checks_survive_iff (Kernel.check_eq_ok_iff.mp hc).1]
    simp only [step, withProcess, held, hok]
    constructor
    · intro hopen cap ho hcap
      exact (hopen cap ho hcap).1
    · intro hkeep cap ho hcap
      refine ⟨hkeep cap ho hcap, ?_⟩
      intro receiver queue' hp hq'
      exact receives_drain queue' (hkeep cap ho hcap) hp (by rwa [ho])

private def endpointCalls : List Call :=
  [.newChannel, .spawn [⟨⟨0⟩, .READ ||| .WRITE ||| .GRANT ||| .DESTROY, 0⟩]]

private def endpoint : System := final System.step .new endpointCalls

/-- A view derived of the endpoint travels over the channel, which stays open. -/
theorem System.send_keeps_channel_open_iff_derive :
    endpoint.StaysOpen (endpoint.step (.send ⟨⟨0⟩, .READ ||| .WRITE ||| .GRANT ||| .DESTROY, 0⟩ ⟨0⟩
      [.derive ⟨0⟩ .WRITE] 7)).2 ⟨0⟩ := by
  have hheld : endpoint.sched.process ⟨0⟩ = some ((Process.new ⟨0⟩).grant
      ⟨⟨0⟩, .READ ||| .WRITE ||| .GRANT ||| .DESTROY, 0⟩).2 := by decide +kernel
  have hsent : (endpoint.step (.send ⟨⟨0⟩, .READ ||| .WRITE ||| .GRANT ||| .DESTROY, 0⟩ ⟨0⟩
      [.derive ⟨0⟩ .WRITE] 7)).1 = .ok (.stamp (EventClock.new ⟨0⟩).sendEvent.1) := by decide +kernel
  refine (System.send_keeps_channel_open_iff hheld hsent).mpr ?_
  intro ⟨h, c, hmove, _⟩
  simp at hmove

/-- The endpoint moved over its own channel leaves no capability that could receive it. -/
theorem System.send_closes_channel : ¬∀ (tr : List SystemEntry) (s : System) (channel : Capability)
    (sender : ProcessId) (grants : List Grant) (data : Int64) (v : Value), SystemRun tr s →
      Authorised tr (.send channel sender grants data) →
      (s.step (.send channel sender grants data)).1 = .ok v →
      s.StaysOpen (s.step (.send channel sender grants data)).2 channel.object := by
  intro hclaim
  let cap : Capability := ⟨⟨0⟩, .READ ||| .WRITE ||| .GRANT ||| .DESTROY, 0⟩
  have hrun : SystemRun (trace System.step .new endpointCalls) endpoint :=
    Run.of_calls (by decide +kernel)
  have hsent : (endpoint.step (.send cap ⟨0⟩ [.move ⟨0⟩] 7)).1 =
      .ok (.stamp (EventClock.new ⟨0⟩).sendEvent.1) := by decide +kernel
  have hopen := hclaim _ _ cap ⟨0⟩ [.move ⟨0⟩] 7 _ hrun (by decide +kernel) hsent
  have hbefore : endpoint.kernel.check cap .READ = .ok () := by decide +kernel
  have hafter := (hopen cap rfl hbefore).1
  exact absurd hafter (by decide +kernel)

end Muaddib
