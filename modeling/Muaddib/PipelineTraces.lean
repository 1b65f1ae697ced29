import Muaddib.RegionHops

/-! # The capabilities and the stamps of a pipeline run

Beside the ring two histories are kept: the capabilities that were minted for its regions, and the
stamps of the sends and receptions that took batches through the queues. -/
namespace Muaddib
open RingPipelines KernelPipeline Carousel

/-- Every region has been given one capability for each of its epochs so far, all with full rights,
and its token holds the last of them. -/
structure Minted (config : PipelineConfig) (log : List KernelEvent) (r : Carousel Token UInt64) :
    Prop where
  objects : ((r.items config.stages).map fun x => x.cap.object).Perm
    ((List.range config.pool).map fun j => objectAt (config.stages + 2 + j))
  history : ∀ x ∈ r.items config.stages, ∃ n, n ≤ r.messages + 1 ∧ x.cap.epoch = UInt64.ofNat n ∧
    (minted log).filter (fun c => c.object = x.cap.object) =
      (List.range (n + 1)).map fun i => ⟨x.cap.object, fullRights, UInt64.ofNat i⟩

namespace Minted
variable {config : PipelineConfig} {log : List KernelEvent} {r r' : Carousel Token UInt64}
  {x : Token} {others : List Token}

theorem perm (h : Minted config log r)
    (hperm : (r.items config.stages).Perm (r'.items config.stages))
    (hmessages : r'.messages = r.messages) : Minted config log r' where
  objects := (hperm.map _).symm.trans h.objects
  history y hy := by
    rw [hmessages]
    exact h.history y (hperm.mem_iff.mpr hy)

/-- One token hops: its region is given the capability of the next epoch. -/
theorem hop (h : Minted config log r) (hbefore : (r.items config.stages).Perm (x :: others))
    (bytes : Bytes) (hafter : (r'.items config.stages).Perm (x.hop bytes :: others))
    (hapart : ((r.items config.stages).map fun x => x.cap.object).Nodup)
    (hrights : x.cap.rights = fullRights) (hmessages : r'.messages = r.messages + 1) :
    Minted config (log ++ [.reissued x.cap (x.hop bytes).cap]) r' := by
  have hcons : (x.cap.object :: others.map fun x => x.cap.object).Nodup :=
    (hbefore.map _).nodup_iff.mp hapart
  have hfilter : ∀ o, (minted (log ++ [.reissued x.cap (x.hop bytes).cap])).filter
      (fun c => c.object = o) = (minted log).filter (fun c => c.object = o) ++
        if x.cap.object = o then [(x.hop bytes).cap] else [] := by
    intro o
    rw [minted_snoc, List.filter_append]
    congr 1
    change [(x.hop bytes).cap].filter _ = _
    simp only [Token.hop, List.filter_singleton, Bool.cond_decide]
  refine ⟨(hafter.map _).trans ((hbefore.map _).symm.trans h.objects), fun y hy => ?_⟩
  rcases List.mem_cons.mp (hafter.mem_iff.mp hy) with rfl | hy
  · obtain ⟨n, hn, hepoch, hhistory⟩ := h.history x (hbefore.mem_iff.mpr List.mem_cons_self)
    have hnext : (x.hop bytes).cap = ⟨x.cap.object, fullRights, UInt64.ofNat (n + 1)⟩ := by
      change (⟨x.cap.object, x.cap.rights, x.cap.epoch + 1⟩ : Capability) = _
      rw [hrights, hepoch, UInt64.ofNat_add]
      rfl
    refine ⟨n + 1, by omega, by rw [hnext], ?_⟩
    rw [hfilter, hnext, if_pos rfl, hhistory, List.range_succ (n := n + 1), List.map_append]
    rfl
  · obtain ⟨n, hn, hepoch, hhistory⟩ := h.history y
      (hbefore.mem_iff.mpr (List.mem_cons_of_mem _ hy))
    have hne : x.cap.object ≠ y.cap.object := by
      intro heq
      exact (List.nodup_cons.mp hcons).1 (heq ▸ List.mem_map_of_mem hy)
    refine ⟨n, by omega, hepoch, ?_⟩
    rw [hfilter, if_neg hne, List.append_nil, hhistory]

end Minted

/-- The role that takes from queue `k`. -/
def roleAt (stages k : ℕ) : Role := if k < stages then .transformer k else .sink

theorem roleAt_ne_producer (stages k : ℕ) : roleAt stages k ≠ .producer := by
  unfold roleAt
  split <;> simp

theorem roleAt_inj {stages j k : ℕ} (hj : j ≤ stages) (hk : k ≤ stages) :
    roleAt stages j = roleAt stages k ↔ j = k := by
  constructor
  · unfold roleAt
    split <;> split <;> intro h
    · exact Role.transformer.inj h
    · cases h
    · cases h
    · omega
  · exact congrArg (roleAt stages)

/-- The stamps of the sends onto every queue and of the receptions from it, in order. The queue
after the sink's leads back to the producer. -/
structure Stamps where
  sent : ℕ → List EventStamp
  received : ℕ → List EventStamp

/-- An item was taken from queue `k` and sent on to the next. -/
def Stamps.relay (st : Stamps) (k : ℕ) (received sent : EventStamp) : Stamps :=
  ⟨Function.update st.sent (k + 1) (st.sent (k + 1) ++ [sent]),
    Function.update st.received k (st.received k ++ [received])⟩

def Stamps.emit (st : Stamps) (sent : EventStamp) : Stamps :=
  ⟨Function.update st.sent 0 (st.sent 0 ++ [sent]), st.received⟩

/-- Each stamp happened before the one `d` places further on in the other list. -/
def Precede (d : ℕ) (l l' : List EventStamp) : Prop :=
  ∀ b s t, l[b]? = some s → l'[b + d]? = some t → s.happenedBefore t = true

section Precede
variable {l l' : List EventStamp} {d : ℕ} {s t : EventStamp}

theorem Precede.append_left (h : Precede d l l') (hlen : l'.length ≤ l.length + d) :
    Precede d (l ++ [s]) l' := by
  intro b u v hu hv
  have hb := (List.getElem?_eq_some_iff.mp hv).1
  rw [List.getElem?_append_left (by omega)] at hu
  exact h b u v hu hv

theorem Precede.append_right (h : Precede d l l')
    (hlast : ∀ b u, b + d = l'.length → l[b]? = some u → u.happenedBefore t = true) :
    Precede d l (l' ++ [t]) := by
  intro b u v hu hv
  rcases Nat.lt_or_ge (b + d) l'.length with hlt | hge
  · rw [List.getElem?_append_left hlt] at hv
    exact h b u v hu hv
  · have hb := (List.getElem?_eq_some_iff.mp hv).1
    rw [List.length_append, List.length_singleton] at hb
    have heq : b + d = l'.length := by omega
    rw [heq, List.getElem?_concat_length] at hv
    exact Option.some.inj hv ▸ hlast b u heq hu

end Precede

def eventsOf (trace : List TraceEvent) (role : Role) (action : Action) : List TraceEvent :=
  trace.filter fun e => e.role = role ∧ e.action = action

def numbered (role : Role) (action : Action) (l : List EventStamp) : List TraceEvent :=
  l.mapIdx fun b s => ⟨role, action, UInt64.ofNat b, s⟩

@[simp] theorem eventsOf_append (trace more : List TraceEvent) (role : Role) (action : Action) :
    eventsOf (trace ++ more) role action = eventsOf trace role action ++ eventsOf more role action :=
  List.filter_append ..

theorem eventsOf_cons (e : TraceEvent) (trace : List TraceEvent) (role : Role) (action : Action) :
    eventsOf (e :: trace) role action = if e.role = role ∧ e.action = action
      then e :: eventsOf trace role action else eventsOf trace role action := by
  simp only [eventsOf, List.filter_cons, decide_eq_true_eq]

@[simp] theorem eventsOf_nil (role : Role) (action : Action) : eventsOf [] role action = [] := rfl

@[simp] theorem numbered_concat (role : Role) (action : Action) (l : List EventStamp)
    (s : EventStamp) : numbered role action (l ++ [s]) =
      numbered role action l ++ [⟨role, action, UInt64.ofNat l.length, s⟩] := List.mapIdx_concat

/-- The stamps of the messages in queue `k`. -/
def ChannelRegistry.waiting (channels : ChannelRegistry) (k : ℕ) : List EventStamp :=
  (channels.queues[objectAt k]?.getD []).map fun m => m.sentAt

theorem ChannelRegistry.waiting_of {channels : ChannelRegistry} {k : ℕ} {ms : List Message}
    (hq : channels.queues[objectAt k]? = some ms) :
    channels.waiting k = ms.map fun m => m.sentAt := by
  rw [waiting, hq, Option.getD_some]

theorem ChannelRegistry.waiting_insert (queues : Std.ExtTreeMap ObjectId (List Message))
    {j k : ℕ} (hj : j < 2 ^ 64) (hk : k < 2 ^ 64) (ms : List Message) :
    (⟨queues.insert (objectAt k) ms⟩ : ChannelRegistry).waiting j =
      if k = j then ms.map fun m => m.sentAt else (⟨queues⟩ : ChannelRegistry).waiting j := by
  simp only [waiting, FiniteMaps.getElem?_insert, objectAt_inj hk hj]
  split <;> rfl

structure Written (stages : ℕ) (trace : List TraceEvent) (st : Stamps) : Prop where
  emits : eventsOf trace .producer .send = numbered .producer .send (st.sent 0)
  receives : ∀ k, k ≤ stages → eventsOf trace (roleAt stages k) .receive =
    numbered (roleAt stages k) .receive (st.received k)
  sends : ∀ k, k ≤ stages → eventsOf trace (roleAt stages k) .send =
    numbered (roleAt stages k) .send (st.sent (k + 1))

/-- A reception follows its send, a send the reception before it, and the send of a batch the return
of the region it is in. -/
structure Chained (stages pool : ℕ) (r : Carousel Token UInt64) (st : Stamps) : Prop where
  begun : (st.sent 0).length = r.next
  taken : ∀ k, k ≤ stages → (st.received k).length = r.taken k
  passed : ∀ k, k ≤ stages → (st.sent (k + 1)).length = r.taken k
  arrive : ∀ k, k ≤ stages → Precede 0 (st.sent k) (st.received k)
  depart : ∀ k, k ≤ stages → Precede 0 (st.received k) (st.sent (k + 1))
  reuse : Precede pool (st.sent (stages + 1)) (st.sent 0)

/-- The ring's past, as the trace has it. What was sent onto a queue and not yet taken is waiting in
it, and the producer knows every return it has taken. -/
structure Chronicle (config : PipelineConfig) (channels : ChannelRegistry) (sched : Scheduler)
    (trace : List TraceEvent) (r : Carousel Token UInt64) (st : Stamps) : Prop where
  written : Written config.stages trace st
  chained : Chained config.stages config.pool r st
  waiting : ∀ k, k ≤ config.stages → (st.sent k).drop (r.taken k) = channels.waiting k
  returned : ∃ n, n ≤ (st.sent (config.stages + 1)).length ∧
    (st.sent (config.stages + 1)).drop n = channels.waiting (config.stages + 1) ∧
    ∀ p, sched.process (pidAt (config.stages + 2)) = some p →
      ∀ s ∈ (st.sent (config.stages + 1)).take n, s.vector.Leq p.clock.vector
  ticks : ∃ n, n + r.returns.length ≤ 2 * (config.stages + 2) + 2 * r.messages + r.results.length ∧
    (∀ k, k ≤ config.stages + 1 → ∀ s ∈ channels.waiting k, s.vector.Below n) ∧
    ∀ id p, sched.process id = some p → p.clock.vector.Below n

section Relay
variable {stages pool batches total k : ℕ} {r r' : Carousel Token UInt64} {st : Stamps}
  {trace : List TraceEvent} {received sent : EventStamp}

@[simp] theorem Stamps.relay_sent (st : Stamps) (k : ℕ) (received sent : EventStamp) (j : ℕ) :
    (st.relay k received sent).sent j =
      if j = k + 1 then st.sent (k + 1) ++ [sent] else st.sent j := Function.update_apply ..

@[simp] theorem Stamps.relay_received (st : Stamps) (k : ℕ) (received sent : EventStamp) (j : ℕ) :
    (st.relay k received sent).received j =
      if j = k then st.received k ++ [received] else st.received j := Function.update_apply ..

theorem Written.relay (h : Written stages trace st) (hk : k ≤ stages) {b : ℕ}
    (hreceived : (st.received k).length = b) (hsent : (st.sent (k + 1)).length = b) :
    Written stages (trace ++ [⟨roleAt stages k, .receive, UInt64.ofNat b, received⟩,
      ⟨roleAt stages k, .send, UInt64.ofNat b, sent⟩]) (st.relay k received sent) := by
  have hne : ∀ j, j ≤ stages → j ≠ k → roleAt stages k ≠ roleAt stages j := by
    intro j hj heq
    rw [Ne, roleAt_inj hk hj]
    exact Ne.symm heq
  refine ⟨?_, fun j hj => ?_, fun j hj => ?_⟩
  · rw [eventsOf_append, h.emits, Stamps.relay_sent, if_neg (by omega)]
    simp [eventsOf_cons, roleAt_ne_producer]
  · rw [eventsOf_append, h.receives j hj, Stamps.relay_received]
    by_cases heq : j = k
    · subst heq
      simp [eventsOf_cons, hreceived]
    · simp [eventsOf_cons, hne j hj heq, heq]
  · rw [eventsOf_append, h.sends j hj, Stamps.relay_sent]
    by_cases heq : j = k
    · subst heq
      simp [eventsOf_cons, hsent]
    · simp [eventsOf_cons, hne j hj heq, heq]

theorem taken_antitone (r : Carousel Token UInt64) (j : ℕ) : r.taken (j + 1) ≤ r.taken j :=
  Nat.sub_le_sub_left (length_flight_mono r.chan (Nat.le_succ j)) _

theorem Chained.relay (h : Chained stages pool r st) (hcounted : Counted stages batches pool r)
    (hk : k ≤ stages) {s : EventStamp} (hhead : (st.sent k)[r.taken k]? = some s)
    (hbefore : s.happenedBefore received = true)
    (hafter : received.happenedBefore sent = true) (hnext : r'.next = r.next)
    (htaken : ∀ j, j ≤ stages → r'.taken j = r.taken j + if j = k then 1 else 0) :
    Chained stages pool r' (st.relay k received sent) := by
  refine ⟨?_, fun j hj => ?_, fun j hj => ?_, fun j hj => ?_, fun j hj => ?_, ?_⟩
  · rw [Stamps.relay_sent, if_neg (by omega), hnext, h.begun]
  · rw [Stamps.relay_received, htaken j hj]
    split
    · next heq =>
      rw [List.length_append, h.taken k hk, heq]
      rfl
    · exact h.taken j hj
  · rw [Stamps.relay_sent, htaken j hj]
    by_cases heq : j = k
    · rw [if_pos (by omega), if_pos heq, List.length_append, h.passed k hk, heq]
      rfl
    · rw [if_neg (by omega), if_neg heq]
      exact h.passed j hj
  · rw [Stamps.relay_sent, Stamps.relay_received]
    by_cases hnew : j = k + 1
    · subst hnew
      rw [if_pos rfl, if_neg (by omega)]
      refine (h.arrive (k + 1) hj).append_left ?_
      rw [h.taken _ hj, h.passed k hk]
      exact taken_antitone r k
    · rw [if_neg hnew]
      by_cases hold : j = k
      · subst hold
        rw [if_pos rfl]
        refine (h.arrive j hj).append_right fun b u hb hu => ?_
        rw [Nat.add_zero, h.taken j hj] at hb
        rw [hb, hhead] at hu
        exact Option.some.inj hu ▸ hbefore
      · rw [if_neg hold]
        exact h.arrive j hj
  · rw [Stamps.relay_sent, Stamps.relay_received]
    by_cases heq : j = k
    · subst heq
      rw [if_pos rfl, if_pos rfl]
      refine Precede.append_right ?_ fun b u hb hu => ?_
      · refine (h.depart j hj).append_left ?_
        rw [h.passed j hj, h.taken j hj]
        exact Nat.le_add_right ..
      · rw [Nat.add_zero, h.passed j hj, ← h.taken j hj] at hb
        rw [hb, List.getElem?_concat_length] at hu
        exact Option.some.inj hu ▸ hafter
    · rw [if_neg heq, if_neg (by omega)]
      exact h.depart j hj
  · rw [Stamps.relay_sent, Stamps.relay_sent, if_neg (by omega : ¬0 = k + 1)]
    split
    · next heq =>
      rw [← heq]
      refine h.reuse.append_left ?_
      have hcount := hcounted.count
      have hflight := hcounted.flight_length
      rw [h.begun, h.passed _ le_rfl, hcounted.taken_stages]
      omega
    · exact h.reuse

@[simp] theorem Stamps.emit_sent (st : Stamps) (sent : EventStamp) (j : ℕ) :
    (st.emit sent).sent j = if j = 0 then st.sent 0 ++ [sent] else st.sent j :=
  Function.update_apply ..

theorem Written.emit (h : Written stages trace st) :
    Written stages (trace ++ [⟨.producer, .send, UInt64.ofNat (st.sent 0).length, sent⟩])
      (st.emit sent) := by
  have hne : ∀ j, .producer ≠ roleAt stages j := fun j => (roleAt_ne_producer stages j).symm
  refine ⟨?_, fun j hj => ?_, fun j hj => ?_⟩
  · rw [eventsOf_append, h.emits, Stamps.emit_sent, if_pos rfl, numbered_concat]
    simp [eventsOf_cons]
  · rw [eventsOf_append, h.receives j hj]
    simp [eventsOf_cons, Stamps.emit]
  · rw [eventsOf_append, h.sends j hj, Stamps.emit_sent, if_neg (by omega)]
    simp [eventsOf_cons, hne]

theorem Written.append (h : Written stages trace st) {more : List TraceEvent}
    (hmore : ∀ e ∈ more, e.role = .producer ∧ e.action = .receive) :
    Written stages (trace ++ more) st := by
  have hnone : ∀ role action, (role, action) ≠ (Role.producer, Action.receive) →
      eventsOf more role action = [] := by
    intro role action hne
    rw [eventsOf, List.filter_eq_nil_iff]
    intro e he hboth
    obtain ⟨hrole, haction⟩ := hmore e he
    rw [decide_eq_true_eq, hrole, haction] at hboth
    exact hne (Prod.ext hboth.1.symm hboth.2.symm)
  refine ⟨?_, fun j hj => ?_, fun j hj => ?_⟩
  · rw [eventsOf_append, hnone _ _ (by simp), List.append_nil, h.emits]
  · rw [eventsOf_append, hnone _ _ (by simp [roleAt_ne_producer]), List.append_nil, h.receives j hj]
  · rw [eventsOf_append, hnone _ _ (by simp), List.append_nil, h.sends j hj]

theorem Chained.emit (h : Chained stages pool r st) (hbound : ∀ j, j ≤ stages → r.taken j ≤ r.next)
    (hreturned : ∀ s ∈ st.sent (stages + 1), s.happenedBefore sent = true)
    (hnext : r'.next = r.next + 1) (htaken : ∀ j, j ≤ stages → r'.taken j = r.taken j) :
    Chained stages pool r' (st.emit sent) := by
  refine ⟨?_, fun j hj => ?_, fun j hj => ?_, fun j hj => ?_, fun j hj => ?_, ?_⟩
  · rw [Stamps.emit_sent, if_pos rfl, List.length_append, h.begun, hnext]
    rfl
  · rw [htaken j hj]
    exact h.taken j hj
  · rw [Stamps.emit_sent, if_neg (by omega), htaken j hj]
    exact h.passed j hj
  · rw [Stamps.emit_sent]
    split
    · next heq =>
      subst heq
      refine (h.arrive 0 hj).append_left ?_
      rw [h.begun]
      exact (h.taken 0 hj).le.trans (hbound 0 hj)
    · exact h.arrive j hj
  · rw [Stamps.emit_sent, if_neg (by omega)]
    exact h.depart j hj
  · rw [Stamps.emit_sent, Stamps.emit_sent, if_neg (by omega), if_pos rfl]
    exact h.reuse.append_right fun b u _ hu => hreturned u (List.mem_of_getElem? hu)

theorem Chained.congr (h : Chained stages pool r st) (hnext : r'.next = r.next)
    (htaken : ∀ j, j ≤ stages → r'.taken j = r.taken j) : Chained stages pool r' st where
  begun := h.begun.trans hnext.symm
  taken j hj := (h.taken j hj).trans (htaken j hj).symm
  passed j hj := (h.passed j hj).trans (htaken j hj).symm
  arrive := h.arrive
  depart := h.depart
  reuse := h.reuse

end Relay

theorem Process.collect_clock (ms : List Message) {p : Process} {n : ℕ}
    (h : p.clock.vector.Below n) (hms : ∀ m ∈ ms, m.sentAt.vector.Below n)
    (hn : n + ms.length < 2 ^ 64) :
    (p.collect ms).clock.vector.Below (n + ms.length) ∧
      p.clock.vector.Leq (p.collect ms).clock.vector ∧
      ∀ m ∈ ms, m.sentAt.vector.Leq (p.collect ms).clock.vector := by
  induction ms generalizing p n with
  | nil => exact ⟨h, VectorClock.Leq.refl _, by simp⟩
  | cons m ms ih =>
    rw [List.length_cons] at hn ⊢
    have hm := hms m List.mem_cons_self
    obtain ⟨p₁, hp₁⟩ : ∃ p₁, p₁ = ((p.grantAll m.capabilities).2.recordReceive m.sentAt).2 := ⟨_, rfl⟩
    have hclock : p₁.clock = (p.clock.receiveEvent m.sentAt).2 := by
      rw [hp₁, Process.recordReceive, grantAll_clock]
    have hcollect : p.collect (m :: ms) = p₁.collect ms := by
      rw [Process.collect, List.foldl_cons, hp₁]
      rfl
    obtain ⟨hbelow, hleq, hknown⟩ := ih (p := p₁) (n := n + 1)
      (hclock ▸ EventClock.below_receiveEvent h hm (by omega))
      (fun m' hm' => (hms m' (List.mem_cons_of_mem _ hm')).mono (Nat.le_succ n)) (by omega)
    rw [hclock] at hleq
    rw [hcollect]
    refine ⟨hbelow.mono (by omega), (EventClock.leq_receiveEvent h hm (by omega)).trans hleq, ?_⟩
    intro m' hm'
    rcases List.mem_cons.mp hm' with rfl | hm'
    · exact (EventClock.stamp_leq_receiveEvent h hm (by omega)).trans hleq
    · exact hknown m' hm'

namespace Chronicle
variable {config : PipelineConfig} {channels : ChannelRegistry} {sched : Scheduler}
  {trace : List TraceEvent} {r r' : Carousel Token UInt64} {st : Stamps} {k : ℕ} {pid : ProcessId}
  {p p' : Process}

/-- An item goes through the hands of the process that takes from queue `k`. -/
theorem relay (h : Chronicle config channels sched trace r st)
    (hcounted : Counted config.stages config.batches.toNat config.pool r) (hk : k ≤ config.stages)
    {m : Message} {rest queue : List Message}
    (hq : channels.queues[objectAt k]? = some (m :: rest))
    (hq' : channels.queues[objectAt (k + 1)]? = some queue) (hp : sched.process pid = some p)
    (hpid : pid ≠ pidAt (config.stages + 2)) {received sent : EventStamp}
    (hreceived : received = (p.clock.receiveEvent m.sentAt).1)
    (hsent : sent = (p.clock.receiveEvent m.sentAt).2.sendEvent.1)
    (hclock : p'.clock = (p.clock.receiveEvent m.sentAt).2.sendEvent.2)
    (hticks : 2 * (config.stages + 2) + 2 * r.messages + r.results.length + 2 < 2 ^ 64)
    (hnext : r'.next = r.next)
    (htaken : ∀ j, j ≤ config.stages → r'.taken j = r.taken j + if j = k then 1 else 0)
    (hmessages : r'.messages = r.messages + 1)
    (hreturns : r'.returns.length + r.results.length ≤ r.returns.length + r'.results.length)
    (data : Int64) (caps : List Capability) :
    Chronicle config ⟨(channels.queues.insert (objectAt k) rest).insert (objectAt (k + 1))
        (queue ++ [⟨data, caps, sent⟩])⟩ (sched.setProcess pid p')
      (trace ++ [⟨roleAt config.stages k, .receive, UInt64.ofNat (r.taken k), received⟩,
        ⟨roleAt config.stages k, .send, UInt64.ofNat (r.taken k), sent⟩]) r'
      (st.relay k received sent) := by
  have hwaiting : ∀ j, j ≤ config.stages + 1 → ChannelRegistry.waiting
      ⟨(channels.queues.insert (objectAt k) rest).insert (objectAt (k + 1))
        (queue ++ [⟨data, caps, sent⟩])⟩ j =
      if k + 1 = j then channels.waiting j ++ [sent] else if k = j then rest.map fun m => m.sentAt
        else channels.waiting j := by
    intro j hj
    rw [ChannelRegistry.waiting_insert _ (by omega) (by omega),
      ChannelRegistry.waiting_insert _ (by omega) (by omega)]
    split
    · next heq =>
      rw [← heq, ChannelRegistry.waiting_of hq', List.map_append]
      rfl
    · rfl
  have hhead : (st.sent k).drop (r.taken k) = m.sentAt :: rest.map fun m => m.sentAt := by
    rw [h.waiting k hk, ChannelRegistry.waiting_of hq, List.map_cons]
  obtain ⟨n, hn, hqueued, hclocks⟩ := h.ticks
  have hm : m.sentAt.vector.Below n := by
    refine hqueued k (by omega) _ ?_
    rw [ChannelRegistry.waiting_of hq, List.map_cons]
    exact List.mem_cons_self
  have hbelow := EventClock.below_receiveEvent (hclocks pid p hp) hm (by omega)
  have hbelow' := EventClock.below_sendEvent hbelow (by omega)
  refine ⟨h.written.relay hk (h.chained.taken k hk) (h.chained.passed k hk),
    h.chained.relay (s := m.sentAt) hcounted hk ?_ ?_ ?_ hnext htaken, fun j hj => ?_, ?_, ?_⟩
  · rw [← List.head?_drop, hhead, List.head?_cons]
  · rw [hreceived]
    exact EventClock.happenedBefore_receiveEvent (hclocks pid p hp) hm (by omega)
  · rw [hreceived, hsent]
    exact EventClock.happenedBefore_sendEvent (VectorClock.Leq.refl _) hbelow (by omega)
  · rw [hwaiting j (by omega), Stamps.relay_sent, htaken j hj]
    by_cases hnew : j = k + 1
    · subst hnew
      have hle : r.taken (k + 1) ≤ (st.sent (k + 1)).length :=
        h.chained.passed k hk ▸ taken_antitone r k
      rw [if_pos rfl, if_neg (by omega), if_pos rfl, Nat.add_zero,
        List.drop_append_of_le_length hle, h.waiting (k + 1) hj]
    · rw [if_neg hnew, if_neg (Ne.symm hnew)]
      by_cases hold : j = k
      · subst hold
        rw [if_pos rfl, if_pos rfl, ← List.drop_drop, hhead, List.drop_one, List.tail_cons]
      · rw [if_neg hold, if_neg (Ne.symm hold), Nat.add_zero]
        exact h.waiting j hj
  · obtain ⟨known, hle, hwait, hknown⟩ := h.returned
    refine ⟨known, ?_, ?_, fun p₁ hp₁ => ?_⟩
    · rw [Stamps.relay_sent]
      split
      · next heq =>
        rw [List.length_append, ← heq]
        exact Nat.le_add_right_of_le hle
      · exact hle
    · rw [hwaiting _ le_rfl, Stamps.relay_sent]
      by_cases hlast : config.stages + 1 = k + 1
      · rw [if_pos hlast, if_pos hlast.symm, ← hlast, List.drop_append_of_le_length hle, hwait]
      · rw [if_neg hlast, if_neg (Ne.symm hlast), if_neg (by omega), hwait]
    · rw [process_setProcess, if_neg hpid] at hp₁
      have hsame : ((st.relay k received sent).sent (config.stages + 1)).take known =
          (st.sent (config.stages + 1)).take known := by
        rw [Stamps.relay_sent]
        split
        · next heq => rw [← heq, List.take_append_of_le_length hle]
        · rfl
      rw [hsame]
      exact hknown p₁ hp₁
  · refine ⟨n + 2, by omega, fun j hj s hs => ?_, fun id q hq => ?_⟩
    · rw [hwaiting j hj] at hs
      split at hs
      · rcases List.mem_append.mp hs with hs | hs
        · exact (hqueued j hj s hs).mono (by omega)
        · rw [List.mem_singleton.mp hs, hsent]
          exact hbelow'
      · split at hs
        · refine (hqueued k (by omega) s ?_).mono (by omega)
          rw [ChannelRegistry.waiting_of hq, List.map_cons]
          exact List.mem_cons_of_mem _ hs
        · exact (hqueued j hj s hs).mono (by omega)
    · rw [process_setProcess] at hq
      split at hq
      · rw [← Option.some.inj hq, hclock]
        exact hbelow'
      · exact (hclocks id q hq).mono (by omega)

theorem collect (h : Chronicle config channels sched trace r st) {ms : List Message}
    (hq : channels.queues[objectAt (config.stages + 1)]? = some ms)
    (hlen : ms.length = r.returns.length)
    (hp : sched.process (pidAt (config.stages + 2)) = some p) {more : List TraceEvent}
    (hmore : ∀ e ∈ more, e.role = .producer ∧ e.action = .receive)
    (hticks : 2 * (config.stages + 2) + 2 * r.messages + r.results.length < 2 ^ 64) :
    Chronicle config ⟨channels.queues.insert (objectAt (config.stages + 1)) []⟩
      (sched.setProcess (pidAt (config.stages + 2)) (p.collect ms)) (trace ++ more) r.drained st := by
  obtain ⟨n, hn, hqueued, hclocks⟩ := h.ticks
  have hwaiting : ∀ j, j ≤ config.stages + 1 → ChannelRegistry.waiting
      ⟨channels.queues.insert (objectAt (config.stages + 1)) []⟩ j =
      if config.stages + 1 = j then [] else channels.waiting j := fun j hj =>
    ChannelRegistry.waiting_insert _ (by omega) (by omega) _
  have hms : ∀ m ∈ ms, m.sentAt.vector.Below n := by
    intro m hm
    refine hqueued _ le_rfl _ ?_
    rw [ChannelRegistry.waiting_of hq]
    exact List.mem_map_of_mem hm
  obtain ⟨hbelow, hleq, hknown⟩ := Process.collect_clock ms (hclocks _ p hp) hms (by omega)
  refine ⟨h.written.append hmore, h.chained.congr rfl fun _ _ => rfl, fun j hj => ?_, ?_, ?_⟩
  · rw [hwaiting j (by omega), if_neg (by omega)]
    exact h.waiting j hj
  · obtain ⟨known, hle, hwait, hold⟩ := h.returned
    refine ⟨_, le_rfl, ?_, fun p₁ hp₁ s hs => ?_⟩
    · rw [hwaiting _ le_rfl, if_pos rfl, List.drop_length]
    · rw [process_setProcess, if_pos rfl] at hp₁
      rw [← Option.some.inj hp₁]
      rw [List.take_length, ← List.take_append_drop known (st.sent _), List.mem_append, hwait,
        ChannelRegistry.waiting_of hq, List.mem_map] at hs
      rcases hs with hs | ⟨m, hm, rfl⟩
      · exact (hold p hp s hs).trans hleq
      · exact hknown m hm
  · refine ⟨n + ms.length, ?_, fun j hj s hs => ?_, fun id q hq => ?_⟩
    · simp only [drained, List.length_nil]
      omega
    · rw [hwaiting j hj] at hs
      split at hs
      · cases hs
      · exact (hqueued j hj s hs).mono (by omega)
    · rw [process_setProcess] at hq
      split at hq
      · exact Option.some.inj hq ▸ hbelow
      · exact (hclocks id q hq).mono (by omega)

theorem emit (h : Chronicle config channels sched trace r st)
    (hcounted : Counted config.stages config.batches.toNat config.pool r)
    (hreturned : channels.queues[objectAt (config.stages + 1)]? = some []) {queue : List Message}
    (hq : channels.queues[objectAt 0]? = some queue)
    (hp : sched.process (pidAt (config.stages + 2)) = some p) {sent : EventStamp}
    (hsent : sent = p.clock.sendEvent.1) (hclock : p'.clock = p.clock.sendEvent.2)
    (hticks : 2 * (config.stages + 2) + 2 * r.messages + r.results.length + 1 < 2 ^ 64)
    (hnext : r'.next = r.next + 1) (htaken : ∀ j, j ≤ config.stages → r'.taken j = r.taken j)
    (hmessages : r'.messages = r.messages + 1)
    (hreturns : r'.returns.length + r.results.length ≤ r.returns.length + r'.results.length)
    (data : Int64) (caps : List Capability) :
    Chronicle config ⟨channels.queues.insert (objectAt 0) (queue ++ [⟨data, caps, sent⟩])⟩
      (sched.setProcess (pidAt (config.stages + 2)) p')
      (trace ++ [⟨.producer, .send, UInt64.ofNat r.next, sent⟩]) r' (st.emit sent) := by
  obtain ⟨n, hn, hqueued, hclocks⟩ := h.ticks
  have hwaiting : ∀ j, j ≤ config.stages + 1 → ChannelRegistry.waiting
      ⟨channels.queues.insert (objectAt 0) (queue ++ [⟨data, caps, sent⟩])⟩ j =
      if 0 = j then channels.waiting j ++ [sent] else channels.waiting j := by
    intro j hj
    rw [ChannelRegistry.waiting_insert _ (by omega) (by omega)]
    split
    · next heq =>
      rw [← heq, ChannelRegistry.waiting_of hq, List.map_append]
      rfl
    · rfl
  have hbelow := EventClock.below_sendEvent (hclocks _ p hp) (by omega)
  have hbound : ∀ j, j ≤ config.stages → r.taken j ≤ r.next := fun j hj =>
    (hcounted.taken_add hj) ▸ Nat.le_add_right ..
  obtain ⟨known, hle, hwait, hknown⟩ := h.returned
  have hall : ∀ s ∈ st.sent (config.stages + 1), s.vector.Leq p.clock.vector := by
    intro s hs
    rw [← List.take_append_drop known (st.sent _), hwait, ChannelRegistry.waiting_of hreturned,
      List.map_nil, List.append_nil] at hs
    exact hknown p hp s hs
  refine ⟨h.chained.begun ▸ h.written.emit, h.chained.emit hbound (fun s hs => ?_) hnext htaken,
    fun j hj => ?_, ⟨known, ?_, ?_, fun p₁ hp₁ s hs => ?_⟩, ?_⟩
  · rw [hsent]
    exact EventClock.happenedBefore_sendEvent (hall s hs) (hclocks _ p hp) (by omega)
  · rw [hwaiting j (by omega), Stamps.emit_sent, htaken j hj]
    by_cases hfirst : j = 0
    · subst hfirst
      rw [if_pos rfl, if_pos rfl,
        List.drop_append_of_le_length ((hbound 0 hj).trans h.chained.begun.ge), h.waiting 0 hj]
    · rw [if_neg hfirst, if_neg (Ne.symm hfirst)]
      exact h.waiting j hj
  · rw [Stamps.emit_sent, if_neg (by omega)]
    exact hle
  · rw [hwaiting _ le_rfl, Stamps.emit_sent, if_neg (by omega), if_neg (by omega), hwait]
  · rw [process_setProcess, if_pos rfl] at hp₁
    rw [Stamps.emit_sent, if_neg (by omega)] at hs
    rw [← Option.some.inj hp₁, hclock]
    exact (hknown p hp s hs).trans (EventClock.leq_sendEvent (hclocks _ p hp) (by omega))
  · refine ⟨n + 1, by omega, fun j hj s hs => ?_, fun id q hq => ?_⟩
    · rw [hwaiting j hj] at hs
      split at hs
      · rcases List.mem_append.mp hs with hs | hs
        · exact (hqueued j hj s hs).mono (by omega)
        · rw [List.mem_singleton.mp hs, hsent]
          exact hbelow
      · exact (hqueued j hj s hs).mono (by omega)
    · rw [process_setProcess] at hq
      split at hq
      · rw [← Option.some.inj hq, hclock]
        exact hbelow
      · exact (hclocks id q hq).mono (by omega)

end Chronicle
end Muaddib
