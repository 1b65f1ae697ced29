import Muaddib.GrantBatches

/-! # Channels: queues of capability-carrying messages -/
namespace Muaddib
open Std (ExtTreeMap)

structure Message where
  data : Int64
  capabilities : List Capability
  sentAt : EventStamp
  deriving DecidableEq

/-- What `receive` hands back: the payload and both ends' stamps. -/
structure Delivery where
  data : Int64
  handles : List Handle
  sentAt : EventStamp
  receivedAt : EventStamp
  deriving DecidableEq

inductive IpcError where
  | unknownChannel (object : ObjectId)
  | capability (error : CapError)
  | grant (error : GrantError)
  deriving DecidableEq, Repr

structure ChannelRegistry where
  queues : ExtTreeMap ObjectId (List Message)
  deriving DecidableEq

namespace ChannelRegistry

def new : ChannelRegistry := ⟨∅⟩

def newChannel (reg : ChannelRegistry) (kernel : Kernel) :
    Capability × ChannelRegistry × Kernel :=
  let (cap, kernel) := kernel.newObject (.READ ||| .WRITE ||| .GRANT ||| .DESTROY)
  (cap, ⟨reg.queues.insert cap.object []⟩, kernel)

def send (reg : ChannelRegistry) (kernel : Kernel) (channel : Capability) (sender : Process)
    (grants : List Grant) (data : Int64) :
    Except (Stop IpcError) EventStamp × ChannelRegistry × Kernel × Process :=
  match kernel.check channel .WRITE with
  | .error e => (.error (.err (.capability e)), reg, kernel, sender)
  | .ok () =>
    match reg.queues[channel.object]? with
    | none => (.error (.err (.unknownChannel channel.object)), reg, kernel, sender)
    | some queue =>
      match resolveGrants kernel sender grants with
      | .error e => (.error (.err (.grant e)), reg, kernel, sender)
      | .ok resolved =>
        match applyGrants kernel sender grants resolved with
        | (.error message, kernel, sender) => (.error (.panic message), reg, kernel, sender)
        | (.ok delivered, kernel, sender) =>
          let (sentAt, sender) := sender.recordSend
          let message : Message := ⟨data, delivered, sentAt⟩
          (.ok sentAt, ⟨reg.queues.insert channel.object (queue ++ [message])⟩, kernel, sender)

def receive (reg : ChannelRegistry) (kernel : Kernel) (channel : Capability)
    (receiver : Process) : Except IpcError (Option Delivery) × ChannelRegistry × Process :=
  match kernel.check channel .READ with
  | .error e => (.error (.capability e), reg, receiver)
  | .ok () =>
    match reg.queues[channel.object]? with
    | none => (.error (.unknownChannel channel.object), reg, receiver)
    | some [] => (.ok none, reg, receiver)
    | some (message :: queue) =>
      let reg : ChannelRegistry := ⟨reg.queues.insert channel.object queue⟩
      let (handles, receiver) := receiver.grantAll message.capabilities
      let (receivedAt, receiver) := receiver.recordReceive message.sentAt
      (.ok (some ⟨message.data, handles, message.sentAt, receivedAt⟩), reg, receiver)

section Outcomes
variable {reg : ChannelRegistry} {k : Kernel} {channel : Capability} {p : Process}

theorem send_of_resolved {queue : List Message} {batch : List (Grant × Capability)} (data : Int64)
    (hc : k.check channel .WRITE = .ok ()) (hq : reg.queues[channel.object]? = some queue)
    (hb : Resolved k p batch) :
    reg.send k channel p (batch.map Prod.fst) data = (.ok p.clock.sendEvent.1,
      ⟨reg.queues.insert channel.object
        (queue ++ [⟨data, batch.map deliver, p.clock.sendEvent.1⟩])⟩,
      moveObjects k batch, p.depart batch) := by
  have hr : resolveGrants k p (batch.map Prod.fst) = .ok (batch.map Prod.snd) :=
    resolveGrants_eq_ok_iff.mpr ⟨batch, hb, rfl, rfl⟩
  simp only [send, hc, hq, hr, applyGrants_of_resolved hb, Process.recordSend_takeAll]
  rfl

theorem receive_of_nil (hc : k.check channel .READ = .ok ())
    (hq : reg.queues[channel.object]? = some []) :
    reg.receive k channel p = (.ok none, reg, p) := by
  simp [receive, hc, hq]

theorem receive_of_cons {m : Message} {queue : List Message} (hc : k.check channel .READ = .ok ())
    (hq : reg.queues[channel.object]? = some (m :: queue)) :
    reg.receive k channel p =
      (.ok (some ⟨m.data, (p.grantAll m.capabilities).1, m.sentAt,
        (p.clock.receiveEvent m.sentAt).1⟩),
      ⟨reg.queues.insert channel.object queue⟩,
      ((p.grantAll m.capabilities).2.recordReceive m.sentAt).2) := by
  have hs : ((p.grantAll m.capabilities).2.recordReceive m.sentAt).1 =
      (p.clock.receiveEvent m.sentAt).1 := by
    change ((p.grantAll m.capabilities).2.clock.receiveEvent m.sentAt).1 = _
    rw [Process.grantAll_clock]
  simp only [receive, hc, hq, hs]

end Outcomes

/-- The two ways `send` can end. -/
theorem send_cases (reg : ChannelRegistry) (k : Kernel) (channel : Capability) (p : Process)
    (grants : List Grant) (data : Int64) :
    (∃ e, reg.send k channel p grants data = (.error (.err e), reg, k, p)) ∨
      ∃ queue batch, k.check channel .WRITE = .ok () ∧ reg.queues[channel.object]? = some queue ∧
        Resolved k p batch ∧ grants = batch.map Prod.fst ∧
        reg.send k channel p grants data = (.ok p.clock.sendEvent.1,
          ⟨reg.queues.insert channel.object
            (queue ++ [⟨data, batch.map deliver, p.clock.sendEvent.1⟩])⟩,
          moveObjects k batch, p.depart batch) := by
  rcases k.check_cases channel .WRITE with ⟨hc, -⟩ | ⟨e, hc⟩
  · cases hq : reg.queues[channel.object]? with
    | none => exact Or.inl ⟨.unknownChannel channel.object, by simp [send, hc, hq]⟩
    | some queue =>
      cases hr : resolveGrants k p grants with
      | error e => exact Or.inl ⟨.grant e, by simp [send, hc, hq, hr]⟩
      | ok resolved =>
        obtain ⟨batch, hb, rfl, rfl⟩ := resolveGrants_eq_ok_iff.mp hr
        exact Or.inr ⟨queue, batch, hc, rfl, hb, rfl, send_of_resolved data hc hq hb⟩
  · exact Or.inl ⟨.capability e, by simp [send, hc]⟩

/-- The three ways `receive` can end. -/
theorem receive_cases (reg : ChannelRegistry) (k : Kernel) (channel : Capability) (p : Process) :
    (∃ e, reg.receive k channel p = (.error e, reg, p)) ∨
      (k.check channel .READ = .ok () ∧ reg.queues[channel.object]? = some [] ∧
        reg.receive k channel p = (.ok none, reg, p)) ∨
      ∃ m queue, k.check channel .READ = .ok () ∧
        reg.queues[channel.object]? = some (m :: queue) ∧
        reg.receive k channel p =
          (.ok (some ⟨m.data, (p.grantAll m.capabilities).1, m.sentAt,
            (p.clock.receiveEvent m.sentAt).1⟩),
          ⟨reg.queues.insert channel.object queue⟩,
          ((p.grantAll m.capabilities).2.recordReceive m.sentAt).2) := by
  rcases k.check_cases channel .READ with ⟨hc, -⟩ | ⟨e, hc⟩
  · cases hq : reg.queues[channel.object]? with
    | none => exact Or.inl ⟨.unknownChannel channel.object, by simp [receive, hc, hq]⟩
    | some queue =>
      cases queue with
      | nil => exact Or.inr (Or.inl ⟨hc, rfl, receive_of_nil hc hq⟩)
      | cons m queue => exact Or.inr (Or.inr ⟨m, queue, hc, rfl, receive_of_cons hc hq⟩)
  · exact Or.inl ⟨.capability e, by simp [receive, hc]⟩

def queueLen (reg : ChannelRegistry) (channel : Capability) : Option ℕ :=
  reg.queues[channel.object]?.map List.length

end ChannelRegistry
end Muaddib
