import Muaddib.CausalGraphs
import Muaddib.ChannelHistories
import Muaddib.ProcessHistories

/-! # Stamps against the event graph of a run

The event graph is read off the trace, from the calls and their outcomes: an event looks back to
the last event of its process, a receive to the send of its message, a birth to the event of the
parent that spawned it. The stamps are the ones the clocks handed out. -/
namespace Muaddib
open LabelledRuns CausalGraphs SystemEntry

structure EventNode where
  process : ProcessId
  stamp : EventStamp
  preds : List ℕ

def EventNode.event (n : EventNode) : Event ProcessId :=
  ⟨n.process, n.preds, fun q => (n.stamp.vector.get q).toNat⟩

/-- The events so far, the last one of every process, and the sends of the queued messages. -/
structure CausalLedger where
  nodes : List EventNode
  last : ProcessId → Option ℕ
  inFlight : ObjectId → List ℕ

namespace CausalLedger

def start : CausalLedger := ⟨[], fun _ => none, fun _ => []⟩

/-- An event at `id` that looks back to the last event there, and to `sources`. -/
def record (g : CausalLedger) (id : ProcessId) (stamp : EventStamp) (sources : List ℕ) :
    CausalLedger :=
  { g with
    nodes := g.nodes ++ [⟨id, stamp, (g.last id).toList ++ sources⟩]
    last := Function.update g.last id (some g.nodes.length) }

def setInFlight (g : CausalLedger) (c : ObjectId) (sends : List ℕ) : CausalLedger :=
  { g with inFlight := Function.update g.inFlight c sends }

def stampIn (s : System) (id : ProcessId) : EventStamp :=
  match s.sched.process id with
  | none => (EventClock.new id).current
  | some p => p.currentStamp

def step (g : CausalLedger) (e : SystemEntry) : CausalLedger :=
  match e.call, e.outcome with
  | .newChannel, .ok (.capability cap) => g.setInFlight cap.object []
  | .spawnChild parent _, .ok (.process child) =>
    (g.record parent (stampIn e.after parent) []).record child (stampIn e.after child)
      [g.nodes.length]
  | .send channel sender _ _, .ok (.stamp sentAt) =>
    (g.record sender sentAt []).setInFlight channel.object
      (g.inFlight channel.object ++ [g.nodes.length])
  | .receive channel receiver, .ok (.delivery (some d)) =>
    (g.record receiver d.receivedAt (g.inFlight channel.object).head?.toList).setInFlight
      channel.object (g.inFlight channel.object).tail
  | .recordLocalEvent id, .ok (.stamp stamp) => g.record id stamp []
  | _, _ => g

def eventCount (g : CausalLedger) (id : ProcessId) : ℕ := g.nodes.countP fun n => n.process = id

def Path (g : CausalLedger) : ℕ → ℕ → Prop := CausalGraphs.Path (g.nodes.map EventNode.event)

end CausalLedger

def causality (tr : List SystemEntry) : CausalLedger := tr.foldl CausalLedger.step .start

theorem causality_snoc (tr : List SystemEntry) (e : SystemEntry) :
    causality (tr ++ [e]) = (causality tr).step e := by
  simp [causality]

/-- A clock that ticks at `p` counts one more event there. -/
theorem tick_time {v : VectorClock ProcessId} {f : ProcessId → ℕ} (p : ProcessId)
    (hv : ∀ q, (v.get q).toNat = f q) (hb : f p + 1 < 2 ^ 64) (q : ProcessId) :
    ((v.tick p).get q).toNat = f q + if p = q then 1 else 0 := by
  rw [VectorClock.get_tick]
  split
  · next heq =>
    subst heq
    rw [← hv] at hb ⊢
    exact MachineCounters.toNat_add_one hb
  · rw [hv, Nat.add_zero]

theorem merge_time {v w : VectorClock ProcessId} {f f' : ProcessId → ℕ}
    (hv : ∀ q, (v.get q).toNat = f q) (hw : ∀ q, (w.get q).toNat = f' q) (q : ProcessId) :
    ((v.merge w).get q).toNat = max (f q) (f' q) := by
  rw [VectorClock.get_merge, MachineCounters.toNat_max, hv, hw]

namespace CausalLedger

def events (g : CausalLedger) : List (Event ProcessId) := g.nodes.map EventNode.event

/-- The event `i` is the send of the message `m`. -/
def IsSend (g : CausalLedger) (i : ℕ) (m : Message) : Prop :=
  ∃ n, g.nodes[i]? = some n ∧ n.stamp = m.sentAt

theorem isSend_record (g : CausalLedger) (id : ProcessId) (stamp : EventStamp) (sources : List ℕ)
    {m : Message} (hm : m.sentAt = stamp) :
    (g.record id stamp sources).IsSend g.nodes.length m :=
  ⟨_, List.getElem?_concat_length, hm.symm⟩

theorem IsSend.lt {g : CausalLedger} {i : ℕ} {m : Message} (h : g.IsSend i m) :
    i < g.nodes.length := by
  obtain ⟨n, hn, -⟩ := h
  exact (List.getElem?_eq_some_iff.mp hn).1

theorem IsSend.record {g : CausalLedger} {i : ℕ} {m : Message} (id : ProcessId)
    (stamp : EventStamp) (sources : List ℕ) (h : g.IsSend i m) :
    (g.record id stamp sources).IsSend i m := by
  have hlt := h.lt
  obtain ⟨n, hn, hstamp⟩ := h
  exact ⟨n, (List.getElem?_append_left hlt).trans hn, hstamp⟩

/-- Every process's clock knows what the process's last event knows, and every queued message
carries the stamp of its send. -/
structure Follows (g : CausalLedger) (s : System) : Prop where
  timed : Timed g.events
  last : Last g.events g.last
  clocks : ∀ id p, s.sched.process id = some p → p.clock.process = id ∧
    ∀ q, (p.clock.vector.get q).toNat = past g.events (g.last id).toList q
  absent : ∀ id, s.sched.process id = none → g.last id = none
  inFlight : ∀ c, List.Forall₂ g.IsSend (g.inFlight c) (s.messages c)

namespace Follows
variable {g : CausalLedger} {s s' : System}

theorem start (h : s.Fresh) : Follows CausalLedger.start s := by
  refine ⟨.nil, .nil, ?_, fun _ _ => rfl, fun c => ?_⟩
  · intro id p hp
    rw [process_of_fresh h] at hp
    cases hp
  · have hempty : s.messages c = [] := by
      rw [System.messages]
      cases hq : s.channels.queues[c]? with
      | none => rfl
      | some queue => exact h.queues c queue hq
    rw [hempty]
    exact .nil

theorem frame (h : Follows g s)
    (hprocess : ∀ id, (s'.sched.process id).map Process.clock = (s.sched.process id).map Process.clock)
    (hmessages : ∀ c, s'.messages c = s.messages c) : Follows g s' := by
  refine ⟨h.timed, h.last, fun id p' hp' => ?_, fun id hnone => ?_, fun c => ?_⟩
  · have hclock := hprocess id
    rw [hp', Option.map_some] at hclock
    obtain ⟨p, hp, heq⟩ := Option.map_eq_some_iff.mp hclock.symm
    rw [← heq]
    exact h.clocks id p hp
  · have hclock := hprocess id
    rw [hnone, Option.map_none] at hclock
    exact h.absent id (Option.map_eq_none_iff.mp hclock.symm)
  · rw [hmessages]
    exact h.inFlight c

theorem events_record (g : CausalLedger) (id : ProcessId) (stamp : EventStamp) (sources : List ℕ) :
    (g.record id stamp sources).events =
      g.events ++ [⟨id, (g.last id).toList ++ sources, fun q => (stamp.vector.get q).toNat⟩] := by
  simp [events, CausalLedger.record, EventNode.event]

theorem last_lt (h : Follows g s) {id : ProcessId} {i : ℕ} (hi : g.last id = some i) :
    i < g.events.length := h.last.lt hi

/-- One event at `id`: the process is rewritten with a clock that knows its last event, the
sources, and one more event of its own. -/
theorem record (h : Follows g s) {id : ProcessId} (p' : Process) (sources : List ℕ)
    (hsources : ∀ i ∈ sources, i < g.nodes.length) (hid : p'.clock.process = id)
    (htime : ∀ q, (p'.clock.vector.get q).toNat =
      past g.events ((g.last id).toList ++ sources) q + if id = q then 1 else 0)
    (hprocess : ∀ i, s'.sched.process i = if id = i then some p' else s.sched.process i)
    (hmessages : ∀ c, s'.messages c = s.messages c) :
    Follows (g.record id p'.currentStamp sources) s' := by
  have hlen : g.events.length = g.nodes.length := List.length_map ..
  have hpreds : ∀ i ∈ (g.last id).toList ++ sources, i < g.events.length := by
    intro i hi
    rcases List.mem_append.mp hi with hi | hi
    · exact h.last_lt (Option.mem_toList.mp hi)
    · rw [hlen]
      exact hsources i hi
  have hlast := h.last.snoc (⟨id, (g.last id).toList ++ sources,
    fun q => (p'.currentStamp.vector.get q).toNat⟩ : Event ProcessId)
  refine ⟨?_, ?_, fun i q hq => ?_, fun i hi => ?_, fun c => ?_⟩
  · rw [events_record]
    apply h.timed.snoc h.last
    · exact hpreds
    · intro i hi
      exact List.mem_append_left _ (Option.mem_toList.mpr hi)
    · exact htime
  · rw [events_record]
    rw [hlen] at hlast
    exact hlast
  · rw [hprocess] at hq
    rw [events_record]
    split at hq
    · next heq =>
      obtain rfl := Option.some.inj hq
      subst heq
      refine ⟨hid, fun r => ?_⟩
      have hnew : (g.record id p'.currentStamp sources).last id = some g.events.length := by
        rw [hlen]
        exact Function.update_self ..
      rw [hnew, Option.toList_some, past, List.foldr_cons, List.foldr_nil, Nat.max_zero, timeAt,
        List.getElem?_concat_length, Option.elim_some]
      rfl
    · next hne =>
      obtain ⟨hclock, hknown⟩ := h.clocks i q hq
      refine ⟨hclock, fun r => ?_⟩
      have hsame : (g.record id p'.currentStamp sources).last i = g.last i :=
        Function.update_of_ne (Ne.symm hne) ..
      rw [hsame, hknown, past_append]
      intro k hk
      exact h.last_lt (Option.mem_toList.mp hk)
  · rw [hprocess] at hi
    split at hi
    · cases hi
    · next hne =>
      have hsame : (g.record id p'.currentStamp sources).last i = g.last i :=
        Function.update_of_ne (Ne.symm hne) ..
      rw [hsame]
      exact h.absent i hi
  · rw [hmessages]
    exact (h.inFlight c).imp fun i m => IsSend.record id _ sources

/-- The queue of one channel changes, and with it the list of its sends. -/
theorem setInFlight (h : Follows g s) {c : ObjectId} {sends : List ℕ} {queue : List Message}
    (hsched : s'.sched = s.sched) (hsends : List.Forall₂ g.IsSend sends queue)
    (hmessages : ∀ o, s'.messages o = if c = o then queue else s.messages o) :
    Follows (g.setInFlight c sends) s' := by
  refine ⟨h.timed, h.last, ?_, ?_, fun o => ?_⟩
  · rw [hsched]
    exact h.clocks
  · rw [hsched]
    exact h.absent
  · rw [hmessages]
    split
    · next heq =>
      subst heq
      have hself : (g.setInFlight c sends).inFlight c = sends := Function.update_self ..
      rw [hself]
      exact hsends
    · next hne =>
      have hother : (g.setInFlight c sends).inFlight o = g.inFlight o :=
        Function.update_of_ne (Ne.symm hne) ..
      rw [hother]
      exact h.inFlight o

theorem enter (h : Follows g s) {id : ProcessId} {p : Process} (hnone : s.sched.process id = none)
    (hclock : p.clock = .new id)
    (hprocess : ∀ i, s'.sched.process i = if id = i then some p else s.sched.process i)
    (hmessages : ∀ c, s'.messages c = s.messages c) : Follows g s' := by
  refine ⟨h.timed, h.last, fun i q hq => ?_, fun i hi => ?_, fun c => ?_⟩
  · rw [hprocess] at hq
    split at hq
    · next heq =>
      obtain rfl := Option.some.inj hq
      subst heq
      rw [hclock, h.absent id hnone]
      exact ⟨rfl, fun r => by simp [EventClock.new, past]⟩
    · exact h.clocks i q hq
  · rw [hprocess] at hi
    split at hi
    · cases hi
    · exact h.absent i hi
  · rw [hmessages]
    exact h.inFlight c

theorem eventCount_record (g : CausalLedger) (id : ProcessId) (stamp : EventStamp)
    (sources : List ℕ) (i : ProcessId) :
    (g.record id stamp sources).eventCount i = g.eventCount i + if id = i then 1 else 0 := by
  simp [eventCount, CausalLedger.record, List.countP_append, List.countP_singleton]

theorem past_le_eventCount (h : Follows g s) (preds : List ℕ) (id : ProcessId) :
    past g.events preds id ≤ g.eventCount id := by
  have hle := h.timed.past_le_count preds id
  rw [events, List.countP_map] at hle
  exact hle

theorem tick (h : Follows g s) {id : ProcessId} {p : Process} (held : s.sched.process id = some p)
    (hbound : g.eventCount id + 1 < 2 ^ 64) (q : ProcessId) :
    (p.clock.sendEvent.2.vector.get q).toNat =
      past g.events ((g.last id).toList ++ []) q + if id = q then 1 else 0 := by
  obtain ⟨hid, hknown⟩ := h.clocks id p held
  have hle := h.past_le_eventCount (g.last id).toList id
  change ((p.clock.vector.tick p.clock.process).get q).toNat = _
  rw [hid, List.append_nil]
  exact tick_time id hknown (by omega) q

theorem observe (h : Follows g s) {id : ProcessId} {p : Process}
    (held : s.sched.process id = some p) (hbound : g.eventCount id + 1 < 2 ^ 64) {i : ℕ}
    {m : Message} (hsend : g.IsSend i m) (q : ProcessId) :
    ((p.clock.receiveEvent m.sentAt).2.vector.get q).toNat =
      past g.events ((g.last id).toList ++ [i]) q + if id = q then 1 else 0 := by
  obtain ⟨hid, hknown⟩ := h.clocks id p held
  obtain ⟨n, hn, hstamp⟩ := hsend
  have hsent : ∀ r, (m.sentAt.vector.get r).toNat = past g.events [i] r := by
    intro r
    have hevent : g.events[i]? = some n.event := by rw [events, List.getElem?_map, hn]; rfl
    rw [past, List.foldr_cons, List.foldr_nil, Nat.max_zero, timeAt_of_getElem? hevent, ← hstamp]
    rfl
  have hmerged : ∀ r, ((p.clock.vector.merge m.sentAt.vector).get r).toNat =
      past g.events ((g.last id).toList ++ [i]) r := by
    intro r
    rw [past_preds_append]
    exact merge_time hknown hsent r
  have hle := h.past_le_eventCount ((g.last id).toList ++ [i]) id
  change (((p.clock.vector.merge m.sentAt.vector).tick p.clock.process).get q).toNat = _
  rw [hid]
  exact tick_time id hmerged (by omega) q

/-- One event at `id` that is a send or a local event. -/
theorem event (h : Follows g s) {id : ProcessId} {p p' : Process}
    (held : s.sched.process id = some p)
    (hbound : ∀ i, (g.record id p.clock.sendEvent.1 []).eventCount i < 2 ^ 64)
    (hclock : p'.clock = p.clock.sendEvent.2)
    (hprocess : ∀ i, s'.sched.process i = if id = i then some p' else s.sched.process i)
    (hmessages : ∀ c, s'.messages c = s.messages c) :
    Follows (g.record id p.clock.sendEvent.1 []) s' := by
  have hcount := hbound id
  rw [eventCount_record, if_pos rfl] at hcount
  have hstamp : p'.currentStamp = p.clock.sendEvent.1 := by
    rw [Process.currentStamp, hclock]
    rfl
  rw [← hstamp]
  apply h.record p' [] (by simp)
  · rw [hclock]
    exact (h.clocks id p held).1
  · rw [hclock]
    exact h.tick held hcount
  · exact hprocess
  · exact hmessages

/-- One event at `id` that receives the message of the event `i`. -/
theorem receive (h : Follows g s) {id : ProcessId} {p p' : Process}
    (held : s.sched.process id = some p) {i : ℕ} {m : Message} (hsend : g.IsSend i m)
    (hbound : ∀ a, (g.record id (p.clock.receiveEvent m.sentAt).1 [i]).eventCount a < 2 ^ 64)
    (hclock : p'.clock = (p.clock.receiveEvent m.sentAt).2)
    (hprocess : ∀ i, s'.sched.process i = if id = i then some p' else s.sched.process i)
    (hmessages : ∀ c, s'.messages c = s.messages c) :
    Follows (g.record id (p.clock.receiveEvent m.sentAt).1 [i]) s' := by
  have hcount := hbound id
  rw [eventCount_record, if_pos rfl] at hcount
  have hstamp : p'.currentStamp = (p.clock.receiveEvent m.sentAt).1 := by
    rw [Process.currentStamp, hclock]
    rfl
  rw [← hstamp]
  apply h.record p' [i]
  · intro k hk
    rw [List.mem_singleton.mp hk]
    exact hsend.lt
  · rw [hclock]
    exact (h.clocks id p held).1
  · rw [hclock]
    exact h.observe held hcount hsend
  · exact hprocess
  · exact hmessages

end Follows

/-- A relation of ledgers and systems that every single change of the two keeps: the changes a call
is made of. The events stay within a bound that earlier events meet too. -/
structure Kept (within : List EventNode → Prop) (I : CausalLedger → System → Prop) : Prop where
  start : ∀ {s : System}, s.Fresh → I .start s
  within_of_concat : ∀ {nodes : List EventNode} {n : EventNode}, within (nodes ++ [n]) → within nodes
  inFlight : ∀ {g : CausalLedger} {s : System}, I g s →
    ∀ c, List.Forall₂ g.IsSend (g.inFlight c) (s.messages c)
  frame : ∀ {g : CausalLedger} {s s' : System}, I g s →
    (∀ id, (s'.sched.process id).map Process.clock = (s.sched.process id).map Process.clock) →
    (∀ c, s'.messages c = s.messages c) → I g s'
  setInFlight : ∀ {g : CausalLedger} {s s' : System}, I g s → ∀ {c : ObjectId} {sends : List ℕ}
    {queue : List Message}, s'.sched = s.sched → List.Forall₂ g.IsSend sends queue →
    (∀ o, s'.messages o = if c = o then queue else s.messages o) → I (g.setInFlight c sends) s'
  enter : ∀ {g : CausalLedger} {s s' : System}, I g s → ∀ {id : ProcessId} {p : Process},
    s.sched.process id = none → p.clock = .new id →
    (∀ i, s'.sched.process i = if id = i then some p else s.sched.process i) →
    (∀ c, s'.messages c = s.messages c) → I g s'
  event : ∀ {g : CausalLedger} {s s' : System}, I g s → ∀ {id : ProcessId} {p p' : Process},
    s.sched.process id = some p → within (g.record id p.clock.sendEvent.1 []).nodes →
    p'.clock = p.clock.sendEvent.2 →
    (∀ i, s'.sched.process i = if id = i then some p' else s.sched.process i) →
    (∀ c, s'.messages c = s.messages c) → I (g.record id p.clock.sendEvent.1 []) s'
  receive : ∀ {g : CausalLedger} {s s' : System}, I g s → ∀ {id : ProcessId} {p p' : Process},
    s.sched.process id = some p → ∀ {i : ℕ} {m : Message}, g.IsSend i m →
    within (g.record id (p.clock.receiveEvent m.sentAt).1 [i]).nodes →
    p'.clock = (p.clock.receiveEvent m.sentAt).2 →
    (∀ i, s'.sched.process i = if id = i then some p' else s.sched.process i) →
    (∀ c, s'.messages c = s.messages c) → I (g.record id (p.clock.receiveEvent m.sentAt).1 [i]) s'

theorem step_spawnChild (g : CausalLedger) (s : System) {s' : System} {parent child : ProcessId}
    (grants : List Grant) {p' newborn : Process} (hparent : s'.sched.process parent = some p')
    (hchild : s'.sched.process child = some newborn) :
    g.step ⟨s, .spawnChild parent grants, .ok (.process child), s'⟩ =
      (g.record parent p'.currentStamp []).record child newborn.currentStamp [g.nodes.length] := by
  simp only [CausalLedger.step, stampIn, hparent, hchild]

namespace Kept
variable {within : List EventNode → Prop} {I : CausalLedger → System → Prop}
  {g : CausalLedger} {s s' : System}

/-- A spawn: an event of the parent, and the birth of the child, which receives it. -/
theorem spawnChild (hI : Kept within I) (h : I g s) {parent child : ProcessId}
    {p p' newborn : Process} (held : s.sched.process parent = some p)
    (hfree : s.sched.process child = none) (hclock : p'.clock = p.clock.sendEvent.2)
    (hbirth : newborn.clock = ((EventClock.new child).receiveEvent p.clock.sendEvent.1).2)
    (hprocess : ∀ i, s'.sched.process i =
      if child = i then some newborn else if parent = i then some p' else s.sched.process i)
    (hmessages : ∀ c, s'.messages c = s.messages c) {grants : List Grant}
    (hbound : within (g.step ⟨s, .spawnChild parent grants, .ok (.process child), s'⟩).nodes) :
    I (g.step ⟨s, .spawnChild parent grants, .ok (.process child), s'⟩) s' := by
  have hne : parent ≠ child := by
    intro heq
    rw [← heq, held] at hfree
    cases hfree
  have hstep := step_spawnChild g s grants
    ((hprocess parent).trans ((if_neg (Ne.symm hne)).trans (if_pos rfl)))
    ((hprocess child).trans (if_pos rfl))
  have hparent : p'.currentStamp = p.clock.sendEvent.1 := by
    rw [Process.currentStamp, hclock]
    rfl
  have hchild : newborn.currentStamp = ((EventClock.new child).receiveEvent p.clock.sendEvent.1).1 := by
    rw [Process.currentStamp, hbirth]
    rfl
  rw [hparent, hchild] at hstep
  rw [hstep] at hbound ⊢
  have hfirst : I (g.record parent p.clock.sendEvent.1 []) (s.setProcess parent p') := by
    apply hI.event h held (hI.within_of_concat hbound) hclock
    · exact process_setProcess s.sched parent p'
    · exact fun c => rfl
  -- the child enters with a new clock, and its birth receives the parent's event
  have hentered : I (g.record parent p.clock.sendEvent.1 [])
      ((s.setProcess parent p').setProcess child (.new child)) := by
    apply hI.enter hfirst (p := .new child)
    · exact ((process_setProcess s.sched parent p' child).trans (if_neg hne)).trans hfree
    · rfl
    · exact process_setProcess _ child _
    · exact fun c => rfl
  have hborn := (process_setProcess (s.sched.setProcess parent p') child (.new child) child).trans
    (if_pos rfl)
  have hsend : (g.record parent p.clock.sendEvent.1 []).IsSend g.nodes.length
      ⟨0, [], p.clock.sendEvent.1⟩ := g.isSend_record parent _ [] rfl
  apply hI.receive hentered hborn hsend hbound hbirth
  · intro i
    rw [hprocess]
    change _ = if child = i then _ else
      ((s.sched.setProcess parent p').setProcess child (.new child)).process i
    rw [process_setProcess, process_setProcess]
    split <;> rfl
  · exact hmessages

/-- One call keeps the ledger and the system in step. -/
theorem step (hI : Kept within I) (h : I g s) {tr : List SystemEntry} (hreg : Registered tr s)
    {call : Call} {outcome : Outcome} (heffect : Effect s call outcome s')
    (hs : spawnCount (tr ++ [⟨s, call, outcome, s'⟩]) ≤ 2 ^ 64)
    (hbound : within (g.step ⟨s, call, outcome, s'⟩).nodes) :
    I (g.step ⟨s, call, outcome, s'⟩) s' := by
  have hspawns : isSpawn ⟨s, call, outcome, s'⟩ = true → spawnCount tr < 2 ^ 64 := by
    intro hspawn
    rw [spawnCount_snoc, if_pos hspawn] at hs
    omega
  cases heffect with
  | failed call e =>
    have hsame : g.step ⟨s, call, .error (.err e), s⟩ = g := by cases call <;> rfl
    rw [hsame]
    exact h
  | newChannel =>
    exact hI.setInFlight h rfl .nil (messages_insert s _ ⟨s.kernel.nextId⟩ [] rfl)
  | spawned initial =>
    exact hI.enter h (hreg.unused (hspawns rfl)) (Process.grantAll_clock _ initial)
      (process_enlist s.sched.freshId.2 _ _) fun c => rfl
  | @spawnedChild parent p batch held resolved =>
    have hfree := hreg.unused (hspawns rfl)
    have hbirth := Process.grantAll_clock ((Process.new ⟨s.sched.nextProcessId⟩).recordReceive
      p.clock.sendEvent.1).2 (batch.map deliver)
    apply hI.spawnChild h held hfree (p.depart_clock batch) hbirth
    · intro i
      rw [process_enlist]
      change _ = if _ then _ else if parent = i then some (p.depart batch) else s.sched.process i
      rw [← process_setProcess s.sched parent (p.depart batch) i]
      rfl
    · exact fun c => rfl
    · exact hbound
  | @sent channel sender p queue batch data held live queued resolved =>
    have hsender : I (g.record sender p.clock.sendEvent.1 [])
        { s with sched := s.sched.setProcess sender (p.depart batch)
                 kernel := moveObjects s.kernel batch } :=
      hI.event h held hbound (p.depart_clock batch) (process_setProcess s.sched sender _) fun c => rfl
    refine hI.setInFlight hsender rfl ?_ (messages_insert _ _ channel.object _ rfl)
    have hflight := hI.inFlight h channel.object
    rw [System.messages, queued] at hflight
    apply List.rel_append
    · exact hflight.imp fun i m => IsSend.record sender _ []
    · exact .cons (g.isSend_record sender _ [] rfl) .nil
  | @received channel receiver p m queue held live queued =>
    have hflight := hI.inFlight h channel.object
    have hqueue : s.messages channel.object = m :: queue := by rw [System.messages, queued]; rfl
    rw [hqueue] at hflight
    obtain ⟨i, sends, hsend, hrest, hsends⟩ := List.forall₂_cons_right_iff.mp hflight
    have hclock : ((p.grantAll m.capabilities).2.recordReceive m.sentAt).2.clock =
        (p.clock.receiveEvent m.sentAt).2 := by
      change ((p.grantAll m.capabilities).2.clock.receiveEvent m.sentAt).2 = _
      rw [Process.grantAll_clock]
    simp only [CausalLedger.step, hsends, List.head?_cons, Option.toList_some,
      List.tail_cons] at hbound ⊢
    have hreceiver : I (g.record receiver (p.clock.receiveEvent m.sentAt).1 [i])
        { s with sched := s.sched.setProcess receiver
                  ((p.grantAll m.capabilities).2.recordReceive m.sentAt).2 } :=
      hI.receive h held hsend hbound hclock (process_setProcess s.sched receiver _) fun c => rfl
    exact hI.setInFlight hreceiver rfl (hrest.imp fun k m' => IsSend.record receiver _ [i])
      (messages_insert _ _ channel.object queue rfl)
  | @recorded id p held =>
    have hclock : p.recordLocalEvent.2.clock = p.clock.sendEvent.2 := rfl
    exact hI.event h held hbound hclock (process_setProcess s.sched id _) fun c => rfl
  | @granted id p cap held =>
    refine hI.frame h (fun i => ?_) fun c => rfl
    change ((s.sched.setProcess id (p.grant cap).2).process i).map _ = _
    rw [process_setProcess]
    split
    · next heq =>
      rw [← heq, held]
      rfl
    · rfl
  | turn =>
    refine hI.frame h (fun i => ?_) fun c => rfl
    rw [Scheduler.process, s.sched.scheduleNext_processes]
    rfl
  | newObject | newRegion | overflowed | derived | revoked | reissued | destroyedObject
  | receivedNothing | read | wrote | inspected | updated | sized | destroyedRegion | reclaimed =>
    exact hI.frame h (fun i => rfl) fun c => rfl

theorem within_of_step (hI : Kept within I) {e : SystemEntry} (h : within (g.step e).nodes) :
    within g.nodes := by
  unfold CausalLedger.step at h
  split at h
  · exact h
  · exact hI.within_of_concat (hI.within_of_concat h)
  · exact hI.within_of_concat h
  · exact hI.within_of_concat h
  · exact hI.within_of_concat h
  · exact h

/-- What is kept holds at the end of every run whose events stay within the bound. -/
theorem run (hI : Kept within I) {allowed : List SystemEntry → Call → Prop} {s₀ : System}
    {tr : List SystemEntry} (h : Run System.step allowed s₀ tr s) (hfresh : s₀.Fresh)
    (hs : spawnCount tr ≤ 2 ^ 64) (hevents : within (causality tr).nodes) :
    Registered tr s ∧ I (causality tr) s := by
  induction h with
  | start => exact ⟨.of_fresh hfresh, hI.start hfresh⟩
  | @call tr s run c ok ih =>
    have hs' : spawnCount tr ≤ 2 ^ 64 := by
      rw [spawnCount_snoc] at hs
      omega
    rw [causality_snoc] at hevents ⊢
    obtain ⟨hreg, hkept⟩ := ih hs' (hI.within_of_step hevents)
    exact ⟨hreg.step (s.step_effect c) hs, hI.step hkept hreg (s.step_effect c) hs hevents⟩

end Kept

namespace Follows
variable {g : CausalLedger} {s s' : System}

theorem kept : Kept
    (fun nodes => ∀ id, (nodes.countP fun n => n.process = id) < 2 ^ 64) Follows where
  start := start
  within_of_concat h id := by
    have hid := h id
    rw [List.countP_append] at hid
    omega
  inFlight := inFlight
  frame := frame
  setInFlight := setInFlight
  enter := enter
  event := event
  receive := receive

/-- The ledger of a run follows it while no counter wraps. -/
theorem run {allowed : List SystemEntry → Call → Prop} {s₀ : System} {tr : List SystemEntry}
    (h : Run System.step allowed s₀ tr s) (hfresh : s₀.Fresh) (hs : spawnCount tr ≤ 2 ^ 64)
    (hevents : ∀ id, (causality tr).eventCount id < 2 ^ 64) :
    Registered tr s ∧ Follows (causality tr) s := kept.run h hfresh hs hevents

theorem get_le_iff_path (h : Follows g s) {i j : ℕ} {a b : EventNode} (ha : g.nodes[i]? = some a)
    (hb : g.nodes[j]? = some b) :
    (∀ q, a.stamp.vector.get q ≤ b.stamp.vector.get q) ↔ i = j ∨ g.Path i j := by
  have ha' : g.events[i]? = some a.event := by rw [events, List.getElem?_map, ha]; rfl
  have hb' : g.events[j]? = some b.event := by rw [events, List.getElem?_map, hb]; rfl
  exact (forall_congr' fun q => UInt64.le_iff_toNat_le).trans (h.timed.le_iff_path ha' hb')

/-- Of two distinct events one happened before the other exactly when a path leads to it. -/
theorem happenedBefore_iff (h : Follows g s) {i j : ℕ} {a b : EventNode} (hij : i ≠ j)
    (ha : g.nodes[i]? = some a) (hb : g.nodes[j]? = some b) :
    a.stamp.happenedBefore b.stamp = true ↔ g.Path i j := by
  have hab := h.get_le_iff_path ha hb
  have hba := h.get_le_iff_path hb ha
  rw [or_iff_right hij] at hab
  rw [or_iff_right (Ne.symm hij)] at hba
  rw [Stamp.happenedBefore, VectorClock.happenedBefore_iff, hab, hba]
  refine ⟨And.left, fun hpath => ⟨hpath, fun hback => ?_⟩⟩
  have hlt := h.timed.path_lt hpath
  have hgt := h.timed.path_lt hback
  omega

end Follows
end CausalLedger

/-- Stamps characterise causality: of two distinct events one happened before the other exactly
when a path of the event graph leads to it, they are concurrent exactly when there is no path
either way, and their stamps are never equal. -/
theorem stamps_characterise_causality {allowed : List SystemEntry → Call → Prop} {s₀ s : System}
    {tr : List SystemEntry} (h : Run System.step allowed s₀ tr s) (hfresh : s₀.Fresh)
    (hs : spawnCount tr ≤ 2 ^ 64) (hevents : ∀ id, (causality tr).eventCount id < 2 ^ 64)
    {i j : ℕ} {a b : EventNode} (hij : i ≠ j) (ha : (causality tr).nodes[i]? = some a)
    (hb : (causality tr).nodes[j]? = some b) :
    (a.stamp.happenedBefore b.stamp = true ↔ (causality tr).Path i j) ∧
    (a.stamp.causality b.stamp = .concurrent ↔
      ¬(causality tr).Path i j ∧ ¬(causality tr).Path j i) ∧
    a.stamp.causality b.stamp ≠ .equal := by
  obtain ⟨-, hfollows⟩ := CausalLedger.Follows.run h hfresh hs hevents
  have hab := hfollows.get_le_iff_path ha hb
  have hba := hfollows.get_le_iff_path hb ha
  rw [or_iff_right hij] at hab
  rw [or_iff_right (Ne.symm hij)] at hba
  have hnot : ¬((causality tr).Path i j ∧ (causality tr).Path j i) := by
    intro hboth
    have hlt := hfollows.timed.path_lt hboth.1
    have hgt := hfollows.timed.path_lt hboth.2
    omega
  refine ⟨?_, ?_, ?_⟩
  · exact hfollows.happenedBefore_iff hij ha hb
  · rw [Stamp.causality, VectorClock.compare_eq_concurrent_iff, hab, hba]
  · rw [Stamp.causality, Ne, VectorClock.compare_eq_equal_iff, hab, hba]
    exact hnot

/-- A parent spawns a child and both go on: the child's birth is after the spawn, and later events
of the two are concurrent. -/
theorem stamps_characterise_causality_spawn :
    let calls : List Call := [.spawn [], .spawnChild ⟨0⟩ [], .recordLocalEvent ⟨0⟩,
      .recordLocalEvent ⟨1⟩]
    ∃ a b : EventNode, (causality (trace System.step .new calls)).nodes[0]? = some a ∧
      (causality (trace System.step .new calls)).nodes[1]? = some b ∧
      (a.stamp.happenedBefore b.stamp = true ↔
        (causality (trace System.step .new calls)).Path 0 1) := by
  intro calls
  have hrun : Run System.step (fun _ _ => True) .new (trace System.step .new calls)
      (final System.step .new calls) := Run.of_calls fun _ _ => trivial
  have hcount : ∀ id, (causality (trace System.step .new calls)).eventCount id < 2 ^ 64 := by
    intro id
    have hle : (causality (trace System.step .new calls)).eventCount id ≤
        (causality (trace System.step .new calls)).nodes.length := List.countP_le_length
    have hlen : (causality (trace System.step .new calls)).nodes.length = 4 := by decide +kernel
    omega
  have ha : ((causality (trace System.step .new calls)).nodes[0]?).isSome := by decide +kernel
  have hb : ((causality (trace System.step .new calls)).nodes[1]?).isSome := by decide +kernel
  obtain ⟨a, ha⟩ := Option.isSome_iff_exists.mp ha
  obtain ⟨b, hb⟩ := Option.isSome_iff_exists.mp hb
  have hexact := stamps_characterise_causality hrun System.fresh_new (by decide +kernel) hcount
    (by decide) ha hb
  exact ⟨a, b, ha, hb, hexact.1⟩

theorem entry_recordLocalEvent {s : System} {id : ProcessId} {p : Process}
    (held : s.sched.process id = some p) : entry System.step s (.recordLocalEvent id) =
      ⟨s, .recordLocalEvent id, .ok (.stamp p.recordLocalEvent.1),
        s.setProcess id p.recordLocalEvent.2⟩ := by
  simp only [entry, System.step, System.withProcess, held]

/-- One process records `k` local events. -/
private theorem local_events (k : ℕ) :
    ∃ (tr : List SystemEntry) (s : System) (p : Process),
      Run System.step (fun _ _ => True) .new tr s ∧ spawnCount tr = 1 ∧
      s.sched.process ⟨0⟩ = some p ∧ p.clock.process = ⟨0⟩ ∧
      (∀ q, p.clock.vector.get q = if (⟨0⟩ : ProcessId) = q then UInt64.ofNat k else 0) ∧
      (causality tr).nodes.length = k ∧
      ∀ i, i < k → ∃ n, (causality tr).nodes[i]? = some n ∧
        ∀ q, n.stamp.vector.get q = if (⟨0⟩ : ProcessId) = q then UInt64.ofNat (i + 1) else 0 := by
  induction k with
  | zero =>
    refine ⟨_, _, .new ⟨0⟩, Run.call .start (.spawn []) trivial, rfl, ?_, rfl, ?_, rfl, ?_⟩
    · exact (process_enlist _ _ _ _).trans (if_pos rfl)
    · intro q
      simp [Process.new, EventClock.new]
    · intro i hi
      omega
  | succ k ih =>
    obtain ⟨tr, s, p, hrun, hspawn, held, hid, hget, hlen, hnodes⟩ := ih
    have hentry := entry_recordLocalEvent held
    have hafter : (s.step (.recordLocalEvent ⟨0⟩)).2 = s.setProcess ⟨0⟩ p.recordLocalEvent.2 :=
      congrArg Entry.after hentry
    have hnew : ∀ q, p.recordLocalEvent.2.clock.vector.get q =
        if (⟨0⟩ : ProcessId) = q then UInt64.ofNat (k + 1) else 0 := by
      intro q
      change (p.clock.vector.tick p.clock.process).get q = _
      rw [VectorClock.get_tick, hid, hget, UInt64.ofNat_add]
      split <;> rfl
    have hledger : causality (tr ++ [entry System.step s (.recordLocalEvent ⟨0⟩)]) =
        (causality tr).record ⟨0⟩ p.recordLocalEvent.1 [] := by
      rw [causality_snoc, hentry]
      rfl
    refine ⟨_, _, p.recordLocalEvent.2, hrun.call (.recordLocalEvent ⟨0⟩) trivial, ?_, ?_, hid, hnew,
      ?_, ?_⟩
    · rw [spawnCount_snoc, hentry, hspawn]
      rfl
    · rw [hafter]
      exact (process_setProcess _ _ _ _).trans (if_pos rfl)
    · rw [hledger]
      change ((causality tr).nodes ++ [_]).length = _
      rw [List.length_append, hlen, List.length_singleton]
    · intro i hi
      rw [hledger]
      change ∃ n, ((causality tr).nodes ++ [_])[i]? = some n ∧ _
      rcases Nat.lt_succ_iff_lt_or_eq.mp hi with hi | rfl
      · obtain ⟨n, hn, hstamp⟩ := hnodes i hi
        refine ⟨n, ?_, hstamp⟩
        rw [List.getElem?_append_left (by omega)]
        exact hn
      · exact ⟨_, by rw [← hlen]; exact List.getElem?_concat_length, hnew⟩

private theorem equal_stamps (k : ℕ) (hk : UInt64.ofNat (k + 1) = 1) (hpos : 0 < k) :
    ∃ (tr : List SystemEntry) (s : System), Run System.step (fun _ _ => True) .new tr s ∧
      spawnCount tr = 1 ∧ ∃ a b, (causality tr).nodes[0]? = some a ∧
      (causality tr).nodes[k]? = some b ∧ a.stamp.causality b.stamp = .equal := by
  obtain ⟨tr, s, p, hrun, hspawn, -, -, -, -, hnodes⟩ := local_events (k + 1)
  obtain ⟨a, ha, hstampA⟩ := hnodes 0 (by omega)
  obtain ⟨b, hb, hstampB⟩ := hnodes k (by omega)
  refine ⟨tr, s, hrun, hspawn, a, b, ha, hb, ?_⟩
  have heq : ∀ q, a.stamp.vector.get q = b.stamp.vector.get q := by
    intro q
    rw [hstampA, hstampB, hk]
    rfl
  rw [Stamp.causality, VectorClock.compare_eq_equal_iff]
  constructor
  · intro q
    rw [heq]
    exact UInt64.le_refl _
  · intro q
    rw [heq]
    exact UInt64.le_refl _

/-- After `2 ^ 64` more local events a process's stamp has the counters of its first event again:
the two events compare equal although one is before the other. -/
theorem stamps_equal_when_counters_wrap :
    ¬∀ (tr : List SystemEntry) (s : System), Run System.step (fun _ _ => True) .new tr s →
      spawnCount tr ≤ 2 ^ 64 → ∀ (i j : ℕ) (a b : EventNode), i ≠ j →
      (causality tr).nodes[i]? = some a → (causality tr).nodes[j]? = some b →
      a.stamp.causality b.stamp ≠ .equal := by
  intro hclaim
  obtain ⟨tr, s, hrun, hspawn, a, b, ha, hb, hequal⟩ :=
    equal_stamps (2 ^ 64) (by decide +kernel) (by decide)
  exact hclaim tr s hrun (hspawn ▸ by decide) 0 (2 ^ 64) a b (by decide) ha hb hequal

end Muaddib
