import Muaddib.FifoExchanges
import Muaddib.ProcessHistories

/-! # Channels deliver every message once and in order

The messages sent on a channel and the receptions from it are read off the trace. Capability
changes of the channel's own object live in the kernel and never reach its queue. -/
namespace Muaddib
open LabelledRuns FifoExchanges

def System.messages (s : System) (c : ObjectId) : List Message := s.channels.queues[c]?.getD []

namespace SystemEntry

/-- The message a successful send put on channel `c`. -/
def sentTo (c : ObjectId) (e : SystemEntry) : Option Message :=
  match e.call, e.outcome with
  | .send channel _ _ data, .ok (.stamp sentAt) =>
    if channel.object = c then some ⟨data, e.delivered, sentAt⟩ else none
  | _, _ => none

/-- What a receive took from a channel: the channel, the receiver and the delivery. -/
def reception (e : SystemEntry) : Option (ObjectId × ProcessId × Delivery) :=
  match e.call, e.outcome with
  | .receive channel receiver, .ok (.delivery (some d)) => some (channel.object, receiver, d)
  | _, _ => none

def receivesFrom (c : ObjectId) (e : SystemEntry) : Bool := e.reception.any fun r => r.1 = c

/-- The call created the channel `c`. -/
def opens (c : ObjectId) (e : SystemEntry) : Bool :=
  match e.call, e.outcome with
  | .newChannel, .ok (.capability cap) => cap.object = c
  | _, _ => false

/-- The call allocated an object; a region too large for its bytes costs an object too. -/
def allocates (e : SystemEntry) : Bool :=
  match e.call, e.outcome with
  | .newObject _, .ok _ | .newChannel, .ok _ | .newRegion _, .ok _
  | .newRegion _, .error (.panic _) => true
  | _, _ => false

/-- The entry delivered `m`: its payload, its send stamp and one handle for each of its
capabilities. The handles resolve to the capabilities in order, in the receiver's table, unless
the message alone carries more than the `2 ^ 32` capabilities a table has handles for. -/
def Delivers (e : SystemEntry) (m : Message) : Prop :=
  ∃ c receiver d, e.reception = some (c, receiver, d) ∧ d.data = m.data ∧ d.sentAt = m.sentAt ∧
    d.handles.length = m.capabilities.length ∧
    (m.capabilities.length ≤ 2 ^ 32 →
      d.handles.map (e.after.table receiver) = m.capabilities.map some)

end SystemEntry

open SystemEntry

/-- The part of a trace since `c` was created. An id that is given out again is a new channel. -/
def sinceOpened (c : ObjectId) (tr : List SystemEntry) : List SystemEntry :=
  tr.foldl (fun l e => if e.opens c then [] else l ++ [e]) []

/-- The messages successfully sent on `c`, in order. -/
def sentOn (c : ObjectId) (tr : List SystemEntry) : List Message :=
  (sinceOpened c tr).filterMap (sentTo c)

/-- The receptions from `c`, in order. -/
def receivedOn (c : ObjectId) (tr : List SystemEntry) : List SystemEntry :=
  (sinceOpened c tr).filter (receivesFrom c)

def objectCount (tr : List SystemEntry) : ℕ := tr.countP allocates

section Snoc
variable (c : ObjectId) (tr : List SystemEntry) {e : SystemEntry}

theorem sinceOpened_snoc : sinceOpened c (tr ++ [e]) =
    if e.opens c then [] else sinceOpened c tr ++ [e] := by
  simp [sinceOpened]

theorem sentOn_snoc (h : e.opens c = false) :
    sentOn c (tr ++ [e]) = sentOn c tr ++ (e.sentTo c).toList := by
  rw [sentOn, sinceOpened_snoc, h]
  cases hm : e.sentTo c <;> simp [sentOn, hm]

theorem receivedOn_snoc (h : e.opens c = false) : receivedOn c (tr ++ [e]) =
    receivedOn c tr ++ if e.receivesFrom c then [e] else [] := by
  rw [receivedOn, sinceOpened_snoc, h]
  cases hm : e.receivesFrom c <;> simp [receivedOn, hm]

theorem objectCount_snoc :
    objectCount (tr ++ [e]) = objectCount tr + if e.allocates then 1 else 0 := by
  simp [objectCount, List.countP_append, List.countP_singleton]

end Snoc

inductive ChannelEffect (c : ObjectId) (e : SystemEntry) : Prop where
  | kept (opens : e.opens c = false) (sent : e.sentTo c = none)
      (received : e.receivesFrom c = false) (queue : e.after.messages c = e.before.messages c)
  | opened (opens : e.opens c = true) (sent : e.sentTo c = none)
      (received : e.receivesFrom c = false) (allocates : e.allocates = true)
      (next : c = ⟨e.before.kernel.nextId⟩) (queue : e.after.messages c = [])
  | sent (m : Message) (opens : e.opens c = false) (sent : e.sentTo c = some m)
      (received : e.receivesFrom c = false) (old : List Message)
      (held : e.before.channels.queues[c]? = some old)
      (queue : e.after.messages c = e.before.messages c ++ [m])
  | received (m : Message) (opens : e.opens c = false) (sent : e.sentTo c = none)
      (received : e.receivesFrom c = true) (delivers : e.Delivers m) (old : List Message)
      (held : e.before.channels.queues[c]? = some old)
      (queue : e.before.messages c = m :: e.after.messages c)

theorem System.allocates_newRegion (s : System) (size : ℕ) :
    allocates (entry System.step s (.newRegion size)) = true := by
  rcases Nat.lt_or_ge size (2 ^ 63) with hsize | hsize
  · simp only [entry, System.step, RegionRegistry.newRegion_of_lt hsize, stopping, allocates]
  · simp only [entry, System.step, RegionRegistry.newRegion_of_le hsize, stopping, allocates]

theorem messages_insert (s s' : System) (o : ObjectId) (queue : List Message)
    (h : s'.channels = ⟨s.channels.queues.insert o queue⟩) (c : ObjectId) :
    s'.messages c = if o = c then queue else s.messages c := by
  rw [System.messages, h, FiniteMaps.getElem?_insert]
  split <;> rfl

/-- Every call opens the channel, sends on it, receives from it or leaves it alone; it leaves it
alone when it neither presents a capability for it nor creates it. -/
theorem Effect.channel {s s' : System} {call : Call} {outcome : Outcome}
    (h : Effect s call outcome s') (c : ObjectId) : ChannelEffect c ⟨s, call, outcome, s'⟩ := by
  cases h with
  | failed call e => cases call <;> exact .kept rfl rfl rfl rfl
  | newChannel =>
    have hqueue := messages_insert s { s with
      channels := (s.channels.newChannel s.kernel).2.1
      kernel := (s.channels.newChannel s.kernel).2.2 } ⟨s.kernel.nextId⟩ [] rfl c
    by_cases ho : (⟨s.kernel.nextId⟩ : ObjectId) = c
    · rw [if_pos ho] at hqueue
      exact .opened (decide_eq_true ho) rfl rfl rfl ho.symm hqueue
    · rw [if_neg ho] at hqueue
      exact .kept (decide_eq_false ho) rfl rfl hqueue
  | @sent channel sender p queue batch data held live queued resolved =>
    have hqueue := messages_insert s { s with
      channels := ⟨s.channels.queues.insert channel.object
        (queue ++ [⟨data, batch.map deliver, p.clock.sendEvent.1⟩])⟩
      kernel := moveObjects s.kernel batch
      sched := s.sched.setProcess sender (p.depart batch) } channel.object _ rfl c
    by_cases ho : channel.object = c
    · rw [if_pos ho] at hqueue
      have hbefore : s.messages c = queue := by rw [System.messages, ← ho, queued]; rfl
      refine .sent ⟨data, batch.map deliver, p.clock.sendEvent.1⟩ rfl ?_ rfl queue (ho ▸ queued)
        (hbefore ▸ hqueue)
      rw [sentTo, delivered_of_resolved held resolved rfl]
      exact if_pos ho
    · rw [if_neg ho] at hqueue
      exact .kept rfl (if_neg ho) rfl hqueue
  | @received channel receiver p m queue held live queued =>
    have hqueue := messages_insert s { s with
      channels := ⟨s.channels.queues.insert channel.object queue⟩
      sched := s.sched.setProcess receiver
        ((p.grantAll m.capabilities).2.recordReceive m.sentAt).2 } channel.object queue rfl c
    by_cases ho : channel.object = c
    · rw [if_pos ho] at hqueue
      have hbefore : s.messages c = m :: queue := by rw [System.messages, ← ho, queued]; rfl
      refine .received m rfl rfl (decide_eq_true ho) ⟨_, _, _, rfl, rfl, rfl, ?_, ?_⟩ (m :: queue)
        (ho ▸ queued) ?_
      · exact p.grantAll_length m.capabilities
      · intro hlen
        rw [← p.grantAll_resolves m.capabilities hlen]
        apply List.map_congr_left
        intro a _
        simp [System.table, Scheduler.setProcess, Scheduler.process]
      · rw [hbefore, hqueue]
    · rw [if_neg ho] at hqueue
      exact .kept rfl rfl (decide_eq_false ho) hqueue
  | newObject | newRegion | overflowed | derived | revoked | reissued | destroyedObject | spawned
  | spawnedChild | receivedNothing | read | wrote | inspected | updated | sized | destroyedRegion
  | reclaimed | recorded | granted | turn => exact .kept rfl rfl rfl rfl

namespace ChannelEffect
variable {c : ObjectId} {tr : List SystemEntry} {e : SystemEntry}

theorem in_order (h : ChannelEffect c e)
    (hbefore : InOrder Delivers (sentOn c tr) (receivedOn c tr) (e.before.messages c)) :
    InOrder Delivers (sentOn c (tr ++ [e])) (receivedOn c (tr ++ [e])) (e.after.messages c) := by
  cases h with
  | kept opens sent received queue =>
    rw [sentOn_snoc c tr opens, receivedOn_snoc c tr opens, sent, received, queue]
    simpa using hbefore
  | opened opens _ _ _ _ queue =>
    rw [sentOn, receivedOn, sinceOpened_snoc, if_pos opens, queue]
    exact .start
  | sent m opens sent received _ _ queue =>
    rw [sentOn_snoc c tr opens, receivedOn_snoc c tr opens, sent, received, queue]
    simpa using hbefore.send m
  | received m opens sent received delivers _ _ queue =>
    rw [sentOn_snoc c tr opens, receivedOn_snoc c tr opens, sent, received]
    rw [queue] at hbefore
    simpa using hbefore.receive delivers

end ChannelEffect

/-- A call that neither presents a capability for the channel nor creates it leaves it alone. -/
theorem Effect.channel_frame {s s' : System} {call : Call} {outcome : Outcome}
    (h : Effect s call outcome s') {c : ObjectId}
    (hother : ∀ cap, call.presented = some cap → cap.object ≠ c)
    (hopens : opens c ⟨s, call, outcome, s'⟩ = false) :
    sentTo c ⟨s, call, outcome, s'⟩ = none ∧ receivesFrom c ⟨s, call, outcome, s'⟩ = false ∧
      s'.messages c = s.messages c := by
  cases h.channel c with
  | kept _ sent received queue => exact ⟨sent, received, queue⟩
  | opened opens => exact absurd (opens.symm.trans hopens) (by decide)
  | sent m _ sent =>
    cases h with
    | sent data held live queued resolved =>
      have hne := hother _ rfl
      simp [sentTo, hne] at sent
    | failed call => cases call <;> cases sent
    | _ => cases sent
  | received m _ _ received =>
    cases h with
    | received held live queued =>
      have hne := hother _ rfl
      simp [receivesFrom, reception, hne] at received
    | failed call => cases call <;> cases received
    | _ => cases received

/-- Object ids come from a counter, and channels exist below it. -/
structure Allocated (tr : List SystemEntry) (s : System) : Prop where
  nextId : s.kernel.nextId = UInt64.ofNat (objectCount tr)
  queues : ∀ (o : ObjectId) (queue : List Message), s.channels.queues[o]? = some queue →
    o.val.toNat < objectCount tr

namespace Allocated
variable {tr : List SystemEntry} {s s' : System} {call : Call} {outcome : Outcome}

theorem start : Allocated [] .new :=
  ⟨rfl, by simp [System.new, ChannelRegistry.new]⟩

theorem unchanged (h : Allocated tr s) {e : SystemEntry} (hnone : e.allocates = false)
    (hnext : s'.kernel.nextId = s.kernel.nextId)
    (hqueues : ∀ (o : ObjectId) (queue : List Message), s'.channels.queues[o]? = some queue →
      ∃ before, s.channels.queues[o]? = some before) : Allocated (tr ++ [e]) s' := by
  have hcount : objectCount (tr ++ [e]) = objectCount tr := by simp [objectCount_snoc, hnone]
  constructor
  · rw [hnext, hcount, h.nextId]
  · intro o queue hq
    obtain ⟨before, hbefore⟩ := hqueues o queue hq
    rw [hcount]
    exact h.queues o before hbefore

theorem allocated (h : Allocated tr s) {e : SystemEntry} (hone : e.allocates = true)
    (hbound : objectCount (tr ++ [e]) ≤ 2 ^ 64)
    (hnext : s'.kernel.nextId = s.kernel.nextId + 1)
    (hqueues : ∀ (o : ObjectId) (queue : List Message), s'.channels.queues[o]? = some queue →
      o = ⟨s.kernel.nextId⟩ ∨ s.channels.queues[o]? = some queue) : Allocated (tr ++ [e]) s' := by
  have hcount : objectCount (tr ++ [e]) = objectCount tr + 1 := by simp [objectCount_snoc, hone]
  rw [hcount] at hbound
  constructor
  · rw [hnext, hcount, h.nextId, UInt64.ofNat_add]
    rfl
  · intro o queue hq
    rw [hcount]
    rcases hqueues o queue hq with rfl | hq
    · rw [h.nextId, UInt64.toNat_ofNat', Nat.mod_eq_of_lt (by omega)]
      omega
    · have hlt := h.queues o queue hq
      omega

theorem toNat_nextId (h : Allocated tr s) (hlt : objectCount tr < 2 ^ 64) :
    s.kernel.nextId.toNat = objectCount tr := by
  rw [h.nextId, UInt64.toNat_ofNat', Nat.mod_eq_of_lt hlt]

theorem queue_of_insert {queues : Std.ExtTreeMap ObjectId (List Message)} {o : ObjectId}
    {old new : List Message} (ho : queues[o]? = some old) (a : ObjectId) (queue : List Message)
    (hq : (queues.insert o new)[a]? = some queue) : ∃ before, queues[a]? = some before := by
  rw [FiniteMaps.getElem?_insert] at hq
  split at hq
  · next heq => exact ⟨old, heq ▸ ho⟩
  · exact ⟨queue, hq⟩

theorem step (h : Allocated tr s) (heffect : Effect s call outcome s')
    (hbound : objectCount (tr ++ [⟨s, call, outcome, s'⟩]) ≤ 2 ^ 64) :
    Allocated (tr ++ [⟨s, call, outcome, s'⟩]) s' := by
  cases heffect with
  | failed call e => exact h.unchanged (by cases call <;> rfl) rfl fun o queue hq => ⟨queue, hq⟩
  | newChannel =>
    refine h.allocated rfl hbound rfl fun o queue hq => ?_
    change (s.channels.queues.insert ⟨s.kernel.nextId⟩ [])[o]? = some queue at hq
    rw [FiniteMaps.getElem?_insert] at hq
    split at hq
    · next heq => exact Or.inl heq.symm
    · exact Or.inr hq
  | newObject | newRegion | overflowed =>
    exact h.allocated rfl hbound rfl fun o queue hq => Or.inr hq
  | sent data held live queued resolved =>
    exact h.unchanged rfl (by simp) (queue_of_insert queued)
  | received held live queued => exact h.unchanged rfl rfl (queue_of_insert queued)
  | spawnedChild =>
    exact h.unchanged rfl (by simp) fun o queue hq => ⟨queue, hq⟩
  | derived | revoked | reissued | destroyedObject | spawned | receivedNothing | read | wrote
  | inspected | updated | sized | destroyedRegion | reclaimed | recorded | granted | turn =>
    exact h.unchanged rfl rfl fun o queue hq => ⟨queue, hq⟩

end Allocated

/-- Nothing that was sent or received on the channel is forgotten. -/
structure Complete (c : ObjectId) (tr : List SystemEntry) : Prop where
  sent : sentOn c tr = tr.filterMap (sentTo c)
  received : receivedOn c tr = tr.filter (receivesFrom c)
  unused : objectCount tr ≤ c.val.toNat → sentOn c tr = [] ∧ receivedOn c tr = []

theorem Complete.step {c : ObjectId} {tr : List SystemEntry} {e : SystemEntry}
    (h : Complete c tr) (hold : Allocated tr e.before) (he : ChannelEffect c e)
    (hbound : objectCount (tr ++ [e]) ≤ 2 ^ 64) : Complete c (tr ++ [e]) := by
  have hmono : objectCount tr ≤ objectCount (tr ++ [e]) := by
    rw [objectCount_snoc]
    exact Nat.le_add_right ..
  cases he with
  | kept opens sent received _ =>
    have hsent := sentOn_snoc c tr opens
    have hreceived := receivedOn_snoc c tr opens
    rw [sent, Option.toList_none, List.append_nil] at hsent
    simp only [received, Bool.false_eq_true, if_false, List.append_nil] at hreceived
    refine ⟨?_, ?_, fun hle => ?_⟩
    · simp [hsent, h.sent, sent]
    · simp [hreceived, h.received, received]
    · rw [hsent, hreceived]
      exact h.unused (hmono.trans hle)
  | opened opens sent received allocates next _ =>
    have hcount : objectCount (tr ++ [e]) = objectCount tr + 1 := by
      simp [objectCount_snoc, allocates]
    have hc : c.val.toNat = objectCount tr := by
      rw [next, hold.nextId, UInt64.toNat_ofNat', Nat.mod_eq_of_lt (by omega)]
    obtain ⟨hsent, hreceived⟩ := h.unused hc.ge
    have hnone : sinceOpened c (tr ++ [e]) = [] := by rw [sinceOpened_snoc, if_pos opens]
    refine ⟨?_, ?_, fun hle => by omega⟩
    · rw [sentOn, hnone, List.filterMap_append, ← h.sent, hsent]
      simp [sent]
    · rw [receivedOn, hnone, List.filter_append, ← h.received, hreceived]
      simp [received]
  | sent m opens sent received old held _ =>
    have hlt := hold.queues c old held
    refine ⟨?_, ?_, fun hle => by omega⟩
    · simp [sentOn_snoc c tr opens, h.sent, sent]
    · simp [receivedOn_snoc c tr opens, h.received, received]
  | received m opens sent received _ old held _ =>
    have hlt := hold.queues c old held
    refine ⟨?_, ?_, fun hle => by omega⟩
    · simp [sentOn_snoc c tr opens, h.sent, sent]
    · simp [receivedOn_snoc c tr opens, h.received, received]

section Runs
variable {allowed : List SystemEntry → Call → Prop} {tr : List SystemEntry} {s : System}

theorem Allocated.run (h : Run System.step allowed .new tr s) (hbound : objectCount tr ≤ 2 ^ 64) :
    Allocated tr s := by
  induction h with
  | start => exact .start
  | @call tr s run call ok ih =>
    have hearlier : objectCount tr ≤ 2 ^ 64 := by
      rw [objectCount_snoc] at hbound
      omega
    exact (ih hearlier).step (s.step_effect call) hbound

theorem Complete.run (h : Run System.step allowed .new tr s) (c : ObjectId)
    (hbound : objectCount tr ≤ 2 ^ 64) : Complete c tr := by
  induction h with
  | start => exact ⟨rfl, rfl, fun _ => ⟨rfl, rfl⟩⟩
  | @call tr s run call ok ih =>
    have hearlier : objectCount tr ≤ 2 ^ 64 := by
      rw [objectCount_snoc] at hbound
      omega
    exact (ih hearlier).step (Allocated.run run hearlier) ((s.step_effect call).channel c) hbound

theorem in_order_run (h : Run System.step allowed .new tr s) (c : ObjectId) :
    InOrder Delivers (sentOn c tr) (receivedOn c tr) (s.messages c) := by
  induction h with
  | start =>
    have hempty : System.new.messages c = [] := by
      simp [System.messages, System.new, ChannelRegistry.new]
    rw [hempty]
    exact .start
  | @call tr s run call ok ih => exact ((s.step_effect call).channel c).in_order ih

end Runs

/-- Channels are exactly-once and first in, first out: what was received on a channel, followed by
what is queued on it, is what was sent on it, message by message. No send and no reception is
forgotten while object ids are not given out twice, and a call on something else changes neither
the queue nor the two sequences. -/
theorem channel_exactly_once {allowed : List SystemEntry → Call → Prop} {tr : List SystemEntry}
    {s : System} (h : Run System.step allowed .new tr s) (c : ObjectId) :
    InOrder Delivers (sentOn c tr) (receivedOn c tr) (s.messages c) ∧
    (objectCount tr ≤ 2 ^ 64 → sentOn c tr = tr.filterMap (sentTo c) ∧
      receivedOn c tr = tr.filter (receivesFrom c)) ∧
    ∀ (earlier : List SystemEntry) (e : SystemEntry) (later : List SystemEntry),
      tr = earlier ++ e :: later → (∀ cap, e.call.presented = some cap → cap.object ≠ c) →
      e.opens c = false →
      e.after.messages c = e.before.messages c ∧ sentOn c (earlier ++ [e]) = sentOn c earlier ∧
        receivedOn c (earlier ++ [e]) = receivedOn c earlier := by
  refine ⟨in_order_run h c, fun hbound => ?_, ?_⟩
  · have hcomplete := Complete.run h c hbound
    exact ⟨hcomplete.sent, hcomplete.received⟩
  · intro earlier e later htr hother hopens
    subst htr
    obtain ⟨-, -, he, -⟩ := h.split_cons
    have heffect := e.before.step_effect e.call
    rw [he] at hother hopens ⊢
    obtain ⟨hsent, hreceived, hqueue⟩ := heffect.channel_frame hother hopens
    refine ⟨hqueue, ?_, ?_⟩
    · rw [sentOn_snoc c earlier hopens, entry, hsent, Option.toList_none, List.append_nil]
    · rw [receivedOn_snoc c earlier hopens, entry, hreceived]
      simp

/-- Two messages are sent, the channel's own capability is reissued and a send through the old one
rejected; the first message is received and the second stays queued. -/
theorem channel_exactly_once_reissued :
    let channel : Capability := ⟨⟨0⟩, .READ ||| .WRITE ||| .GRANT ||| .DESTROY, 0⟩
    let region : Capability := ⟨⟨1⟩, .READ ||| .WRITE ||| .GRANT ||| .DESTROY, 0⟩
    let calls : List Call := [.newChannel, .newRegion 4, .spawn [region], .spawn [],
      .send channel ⟨0⟩ [.move ⟨0⟩] 7, .send channel ⟨1⟩ [] 8, .reissue channel,
      .send channel ⟨1⟩ [] 9, .receive { channel with epoch := 1 } ⟨1⟩]
    InOrder Delivers (sentOn ⟨0⟩ (trace System.step .new calls))
        (receivedOn ⟨0⟩ (trace System.step .new calls))
        ((final System.step .new calls).messages ⟨0⟩) ∧
      (sentOn ⟨0⟩ (trace System.step .new calls)).map Message.data = [7, 8] ∧
      ((final System.step .new calls).messages ⟨0⟩).map Message.data = [8] := by
  intro channel region calls
  have hrun : Run System.step (fun _ _ => True) .new (trace System.step .new calls)
      (final System.step .new calls) := Run.of_calls fun _ _ => trivial
  obtain ⟨horder, -, -⟩ := channel_exactly_once hrun ⟨0⟩
  exact ⟨horder, by decide +kernel, by decide +kernel⟩

/-- A message is sent, and the id of its channel is given out again. -/
private theorem channel_replaced (k : ℕ) (hk : 1 + UInt64.ofNat k = 0) :
    ∃ tr s, SystemRun tr s ∧ (∀ id, grantCount id tr = 0) ∧ tr.filterMap (sentTo ⟨0⟩) ≠ [] ∧
      tr.filter (receivesFrom ⟨0⟩) = [] ∧ s.messages ⟨0⟩ = [] := by
  let first : List Call := [.newChannel, .spawn [], .send ⟨⟨0⟩, fullRights, 0⟩ ⟨0⟩ [] 7]
  let later : List Call := List.replicate k (.newObject .NONE) ++ [.newChannel]
  let s := final System.step .new first
  have hlater (call : Call) (hcall : call ∈ later) : call = .newObject .NONE ∨ call = .newChannel := by
    rcases List.mem_append.mp hcall with hcall | hcall
    · exact Or.inl (List.eq_of_mem_replicate hcall)
    · exact Or.inr (List.mem_singleton.mp hcall)
  have hentries (e : SystemEntry) (he : e ∈ trace System.step s later) :
      (∀ id, e.grantsInto id = 0) ∧ e.sentTo ⟨0⟩ = none ∧ e.receivesFrom ⟨0⟩ = false := by
    rcases hlater e.call (call_mem_of_mem_trace he) with hcall | hcall <;>
      simp [grantsInto, granted, sentTo, receivesFrom, reception, hcall]
  have hfirst : SystemRun (trace System.step .new first) s := Run.of_calls (by decide +kernel)
  have hrun : SystemRun (trace System.step .new first ++ trace System.step s later)
      (final System.step s later) := by
    refine hfirst.append (Run.of_calls fun i hi c hc => ?_)
    rcases hlater _ (List.getElem_mem hi) with hcall | hcall <;> simp [hcall, Call.capabilities] at hc
  refine ⟨_, _, hrun, fun id => ?_, ?_, ?_, ?_⟩
  · have hnone : grantCount id (trace System.step .new first) = 0 :=
      Nat.le_zero.mp ((grantCount_le_total id _).trans (by decide +kernel))
    rw [grantCount, List.map_append, List.sum_append, ← grantCount, hnone, Nat.zero_add]
    refine List.sum_eq_zero fun n hn => ?_
    obtain ⟨e, he, rfl⟩ := List.mem_map.mp hn
    exact (hentries e he).1 id
  · have hsent : (trace System.step .new first).filterMap (sentTo ⟨0⟩) ≠ [] := by decide +kernel
    intro hnil
    exact hsent (List.append_eq_nil_iff.mp ((List.filterMap_append ..).symm.trans hnil)).1
  · have hnone : (trace System.step .new first).filter (receivesFrom ⟨0⟩) = [] := by decide +kernel
    rw [List.filter_append, hnone, List.nil_append, List.filter_eq_nil_iff]
    intro e he
    rw [(hentries e he).2.2]
    exact Bool.false_ne_true
  · obtain ⟨kernel, hfinal, hnext⟩ := s.final_newObjects k
    have hzero : kernel.nextId = 0 := hnext.trans hk
    rw [final_append, hfinal]
    refine (messages_insert { s with kernel } _ ⟨kernel.nextId⟩ [] rfl ⟨0⟩).trans (if_pos ?_)
    rw [hzero]

/-- After `2 ^ 64` allocations `newChannel` gives the id of a channel out again, and the message that
was queued there is neither queued nor delivered. -/
theorem messages_lost_when_ids_wrap :
    ¬∀ (tr : List SystemEntry) (s : System), SystemRun tr s → (∀ id, grantCount id tr < 2 ^ 32) →
      ∀ c, InOrder Delivers (tr.filterMap (sentTo c)) (tr.filter (receivesFrom c)) (s.messages c) := by
  intro hclaim
  obtain ⟨tr, s, hrun, hgrants, hsent, hreceived, hqueue⟩ :=
    channel_replaced (2 ^ 64 - 1) (by decide +kernel)
  obtain ⟨taken, htaken, hforall⟩ :=
    hclaim tr s hrun (fun id => by rw [hgrants]; decide) ⟨0⟩
  rw [hreceived] at hforall
  rw [List.forall₂_nil_left_iff.mp hforall, hqueue] at htaken
  exact hsent htaken

end Muaddib
