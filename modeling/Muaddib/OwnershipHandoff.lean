import Muaddib.EpochRoots

/-! # Exclusive ownership handoff

A moved capability is reissued while its batch is applied, so that every older copy is dead
before the message is queued. The fresh copy is inside the queue, where no client can reach
it before the message is received. -/
namespace Muaddib
open LabelledRuns

namespace SystemEntry

/-- The call received a message from `channel`. -/
def pops (channel : ObjectId) (e : SystemEntry) : Bool :=
  match e.call, e.outcome with
  | .receive cap _, .ok (.delivery (some _)) => cap.object = channel
  | _, _ => false

/-- What the call delivers is in the message it queued, or was granted to the child it spawned. -/
def HandsOver (e : SystemEntry) : Prop :=
  match e.call, e.outcome with
  | .send channel _ _ data, .ok (.stamp sentAt) =>
    ∃ queue, e.before.channels.queues[channel.object]? = some queue ∧
      e.after.channels.queues[channel.object]? = some (queue ++ [⟨data, e.delivered, sentAt⟩])
  | .spawnChild _ _, .ok (.process child) =>
    ∃ spawnedAt, e.after.sched.process child =
      some (Scheduler.newborn child spawnedAt e.delivered)
  | _, _ => False

end SystemEntry

open SystemEntry

@[simp] theorem deliver_object (x : Grant × Capability) : (deliver x).object = x.2.object := by
  unfold deliver
  split <;> rfl

theorem Resolved.filter_moved {k : Kernel} {p : Process} {batch : List (Grant × Capability)}
    (hb : Resolved k p batch) {x : Grant × Capability} (hx : x ∈ batch) (hm : x.1.isMove = true) :
    (batch.map deliver).filter (fun c => c.object = x.2.object) = [deliver x] := by
  obtain ⟨l, r, rfl⟩ := List.append_of_mem hx
  obtain ⟨-, hr, hl⟩ := List.pairwise_append.mp hb.apart
  have hright := (List.pairwise_cons.mp hr).1
  have hleft : (l.map deliver).filter (fun c => c.object = x.2.object) = [] := by
    apply List.filter_eq_nil_iff.mpr
    intro c hc
    obtain ⟨y, hy, rfl⟩ := List.mem_map.mp hc
    have hne := hl y hy x List.mem_cons_self (by simp [hm])
    simpa using hne
  have hrest : (r.map deliver).filter (fun c => c.object = x.2.object) = [] := by
    apply List.filter_eq_nil_iff.mpr
    intro c hc
    obtain ⟨y, hy, rfl⟩ := List.mem_map.mp hc
    have hne := hright y hy (by simp [hm])
    simpa using hne.symm
  rw [List.map_append, List.map_cons, List.filter_append, hleft, List.nil_append,
    List.filter_cons_of_pos (by simp), hrest]

theorem Resolved.reissued_mem {k : Kernel} {p : Process} {batch : List (Grant × Capability)}
    (hb : Resolved k p batch) {a : Handle} {moved : Capability} (hx : (.move a, moved) ∈ batch) :
    .reissued moved ⟨moved.object, moved.rights, moved.epoch + 1⟩ ∈
      batchEvents p (batch.map Prod.fst) := by
  obtain ⟨hpa, -⟩ := resolveGrant_move_iff.mp (hb.entries _ hx)
  apply List.mem_append_right
  exact List.mem_filterMap.mpr ⟨.move a, List.mem_map.mpr ⟨_, hx, rfl⟩, by simp [moveEvent, hpa]⟩

theorem deliver_of_mem_minted {k : Kernel} {p : Process} {batch : List (Grant × Capability)}
    (hb : Resolved k p batch) {c : Capability}
    (hc : c ∈ minted (batchEvents p (batch.map Prod.fst))) : c ∈ batch.map deliver := by
  obtain ⟨ev, hev, hm⟩ := List.mem_filterMap.mp hc
  rcases List.mem_append.mp hev with hev | hev
  all_goals
    obtain ⟨g, hg, hgev⟩ := List.mem_filterMap.mp hev
    obtain ⟨⟨g, d⟩, hx, rfl⟩ := List.mem_map.mp hg
    have he := hb.entries _ hx
    refine List.mem_map.mpr ⟨⟨g, d⟩, hx, ?_⟩
  · cases g with
    | transfer h => simp [deriveEvent] at hgev
    | move h => simp [deriveEvent] at hgev
    | derive h r =>
      obtain ⟨held, hp, hd⟩ := resolveGrant_derive_iff.mp he
      obtain ⟨-, -, -, rfl⟩ := Kernel.derive_eq_ok_iff.mp hd
      obtain rfl : .derived held ⟨held.object, r, held.epoch⟩ = ev := by
        simpa [deriveEvent, hp] using hgev
      exact Option.some.inj hm
  · cases g with
    | transfer h => simp [moveEvent] at hgev
    | derive h r => simp [moveEvent] at hgev
    | move h =>
      obtain ⟨hp, -⟩ := resolveGrant_move_iff.mp he
      obtain rfl : .reissued d ⟨d.object, d.rights, d.epoch + 1⟩ = ev := by
        simpa [moveEvent, hp] using hgev
      exact Option.some.inj hm

/-- A delivered capability for an object without live capabilities was transferred as it was. -/
theorem held_of_deliver {k : Kernel} {p : Process} {batch : List (Grant × Capability)}
    (hb : Resolved k p batch) {o : ObjectId}
    (hdead : ∀ a c, p.capability a = some c → c.object = o → ¬k.Live c) {c : Capability}
    (hc : c ∈ batch.map deliver) (ho : c.object = o) : ∃ a, p.capability a = some c := by
  obtain ⟨⟨g, d⟩, hx, rfl⟩ := List.mem_map.mp hc
  rw [deliver_object] at ho
  have he := hb.entries _ hx
  cases g with
  | transfer h => exact ⟨h, resolveGrant_transfer_iff.mp he⟩
  | derive h r =>
    obtain ⟨held, hp, hd⟩ := resolveGrant_derive_iff.mp he
    obtain ⟨hl, -, -, rfl⟩ := Kernel.derive_eq_ok_iff.mp hd
    exact absurd hl (hdead h held hp ho)
  | move h =>
    obtain ⟨hp, hl, -⟩ := resolveGrant_move_iff.mp he
    exact absurd hl (hdead h d hp ho)

/-- A capability for `o` that is not of epoch `epoch`. -/
def Stale (o : ObjectId) (epoch : UInt64) (c : Capability) : Prop := c.object = o → c.epoch ≠ epoch

/-- A successful call that hands `batch` over from `source`. -/
structure Handover (e : SystemEntry) (source : ProcessId) (p : Process)
    (batch : List (Grant × Capability)) : Prop where
  held : e.before.sched.process source = some p
  resolved : Resolved e.before.kernel p batch
  kernel : e.after.kernel = moveObjects e.before.kernel batch
  events : e.kernelEvents = batchEvents p (batch.map Prod.fst)
  delivered : e.delivered = batch.map deliver
  handsOver : e.HandsOver
  returned : e.returned = none
  holds : ∀ c, e.after.sched.Holds c → e.before.sched.Holds c ∨ c ∈ batch.map deliver
  carries : ∀ c, e.after.channels.Carries c → e.before.channels.Carries c ∨ c ∈ batch.map deliver
  sends : ∀ channel grants data, e.call = .send channel source grants data →
    e.before.kernel.Live channel ∧ (∀ c, e.after.sched.Holds c → e.before.sched.Holds c) ∧
    ∃ queue m, m.capabilities = batch.map deliver ∧
      e.before.channels.queues[channel.object]? = some queue ∧
      e.after.channels.queues = e.before.channels.queues.insert channel.object (queue ++ [m])

theorem Effect.handover {s s' : System} {call : Call} {outcome : Outcome}
    (h : Effect s call outcome s') {source : ProcessId} {grants : List Grant}
    (hb : call.batch = some (source, grants)) (hok : outcome.isOk = true) :
    ∃ p batch, grants = batch.map Prod.fst ∧
      Handover ⟨s, call, outcome, s'⟩ source p batch := by
  cases h with
  | failed call e => cases hok
  | @spawnedChild parent p batch held resolved =>
    obtain ⟨rfl, rfl⟩ : parent = source ∧ batch.map Prod.fst = grants := by
      simpa [Call.batch] using hb
    refine ⟨p, batch, rfl, held, resolved, rfl, by simp [kernelEvents, held],
      delivered_of_resolved held resolved rfl, ?_, rfl, fun c hc => ?_, fun c hc => Or.inl hc,
      by simp⟩
    · refine ⟨p.clock.sendEvent.1, ?_⟩
      rw [delivered_of_resolved held resolved rfl]
      simp [Scheduler.process, Scheduler.enlist]
    · rcases Scheduler.holds_enlist hc with hc | ⟨a, ha⟩
      · rcases Scheduler.holds_setProcess (s := s.sched) hc with hc | ⟨a, ha⟩
        · exact Or.inl hc
        · exact Or.inl ⟨parent, p, a, held, Process.capability_of_depart ha⟩
      · exact Or.inr (Scheduler.capability_newborn ha)
  | @sent channel sender p queue batch data held live queued resolved =>
    obtain ⟨rfl, rfl⟩ : sender = source ∧ batch.map Prod.fst = grants := by
      simpa [Call.batch] using hb
    have hholds : ∀ c, (s.sched.setProcess sender (p.depart batch)).Holds c → s.sched.Holds c := by
      intro c hc
      rcases Scheduler.holds_setProcess hc with hc | ⟨a, ha⟩
      · exact hc
      · exact ⟨sender, p, a, held, Process.capability_of_depart ha⟩
    refine ⟨p, batch, rfl, held, resolved, rfl, by simp [kernelEvents, held],
      delivered_of_resolved held resolved rfl, ?_, rfl, fun c hc => Or.inl (hholds c hc),
      fun c hc => ?_, ?_⟩
    · refine ⟨queue, queued, ?_⟩
      rw [delivered_of_resolved held resolved rfl]
      simp
    · rcases ChannelRegistry.carries_insert hc with hc | ⟨m, hm, hc⟩
      · exact Or.inl hc
      · rcases List.mem_append.mp hm with hm | hm
        · exact Or.inl ⟨channel.object, queue, queued, m, hm, hc⟩
        · obtain rfl := List.mem_singleton.mp hm
          exact Or.inr hc
    · intro ch gs d hcall
      obtain ⟨rfl, -⟩ : channel = ch ∧ _ := by simpa using hcall
      exact ⟨live, hholds, queue, _, rfl, queued, rfl⟩
  | _ => cases hb

/-- The epoch a live capability's object enters next is not the epoch of any capability so far. -/
theorem KernelLog.epoch_ne_succ {log : List KernelEvent} {k : Kernel} {held c : Capability}
    (h : KernelLog log k) (hf : Fits log) (hlive : k.Live held)
    (hbound : bumpCount held.object log + 1 < 2 ^ 64) (hc : c ∈ minted log)
    (ho : c.object = held.object) : c.epoch ≠ held.epoch + 1 := by
  intro he
  obtain ⟨-, -, hheld⟩ := (h.ledger hf).of_live hlive
  obtain ⟨-, n, hn, hepoch⟩ := h.minted_le hf hc
  rw [ho] at hn
  have hsucc : UInt64.ofNat (bumpCount held.object log + 1) = UInt64.ofNat n := by
    rw [← hepoch, he, hheld]
    simp
  have heq := MachineCounters.ofNat_inj hbound (by omega) hsucc
  omega

theorem KernelLog.next_ne {log : List KernelEvent} {k : Kernel} {c : Capability}
    (h : KernelLog log k) (hf : Fits log) (hc : c ∈ minted log) :
    (⟨k.nextId⟩ : ObjectId) ≠ c.object := by
  intro heq
  have hlt := (h.minted_le hf hc).1
  have hnext := ((h.ledger hf).eq_next_iff hf.allocations c.object).mp heq
  omega

section Moved
variable {earlier : List SystemEntry} {e : SystemEntry} {source : ProcessId} {p : Process}
  {batch : List (Grant × Capability)} {a : Handle} {moved : Capability}

theorem Handover.current (hover : Handover e source p batch) (hx : (.move a, moved) ∈ batch) :
    e.after.kernel.epochs[moved.object]? = some (moved.epoch + 1) := by
  rw [hover.kernel]
  exact moveObjects_epochs_of_mem hover.resolved.movable hx rfl

theorem Handover.stale (hrun : SystemRun earlier e.before) (hover : Handover e source p batch)
    (hf : Fits (kernelLog (earlier ++ [e]))) (hx : (.move a, moved) ∈ batch) {c : Capability}
    (hc : Produced earlier c) : Stale moved.object (moved.epoch + 1) c := by
  obtain ⟨hlog, hprod, -⟩ := hrun.log
  obtain ⟨-, hlive, -⟩ := resolveGrant_move_iff.mp (hover.resolved.entries _ hx)
  rw [kernelLog_append, kernelLog_singleton, hover.events] at hf
  have hbump : 0 < bumpCount moved.object (batchEvents p (batch.map Prod.fst)) :=
    List.countP_pos_iff.mpr ⟨_, hover.resolved.reissued_mem hx, by simp [KernelEvent.bumps]⟩
  have hle := bumpCount_le_revocations moved.object
    (kernelLog earlier ++ batchEvents p (batch.map Prod.fst))
  have hrev := hf.revocations
  have hsplit : bumpCount moved.object (kernelLog earlier ++ batchEvents p (batch.map Prod.fst)) =
      bumpCount moved.object (kernelLog earlier) +
        bumpCount moved.object (batchEvents p (batch.map Prod.fst)) := List.countP_append
  exact hlog.epoch_ne_succ hf.of_append hlive (by omega) (hprod c hc)

/-- When the batch of a call moved `moved`, one capability for its object is live: the fresh one. -/
theorem Handover.only_fresh (hrun : SystemRun earlier e.before) (hover : Handover e source p batch)
    (hf : Fits (kernelLog (earlier ++ [e]))) (hx : (.move a, moved) ∈ batch) {c : Capability}
    (hc : Produced (earlier ++ [e]) c) (ho : c.object = moved.object) :
    e.after.kernel.Live c ↔ c = ⟨moved.object, moved.rights, moved.epoch + 1⟩ := by
  have hcurrent := hover.current hx
  have hdelivered : c ∈ batch.map deliver → c = ⟨moved.object, moved.rights, moved.epoch + 1⟩ := by
    intro hc
    have hmem : c ∈ (batch.map deliver).filter (fun c => c.object = moved.object) :=
      List.mem_filter.mpr ⟨hc, decide_eq_true ho⟩
    rw [hover.resolved.filter_moved hx rfl, List.mem_singleton] at hmem
    exact hmem
  constructor
  · intro hlive
    have hec : c.epoch = moved.epoch + 1 := by
      unfold Kernel.Live at hlive
      rw [ho, hcurrent] at hlive
      exact (Option.some.inj hlive).symm
    have hold : ¬Produced earlier c := fun hc => hover.stale hrun hf hx hc ho hec
    rcases produced_snoc.mp hc with hc | hc | hc | hc | hc
    · exact absurd hc hold
    · rw [hover.returned] at hc
      cases hc
    · rcases hover.holds c hc with hc | hc
      · exact absurd (hrun.seen_of_holds hc).produced hold
      · exact hdelivered hc
    · rcases hover.carries c hc with hc | hc
      · exact absurd (hrun.produced_of_carries hc) hold
      · exact hdelivered hc
    · rw [hover.events] at hc
      exact hdelivered (deliver_of_mem_minted hover.resolved hc)
  · intro heq
    rw [heq]
    exact hcurrent

end Moved

/-- Object `o` is in flight: it is at `epoch` with the given bytes, and all capabilities of that
epoch are in the message `m`, at position `i` of `channel`'s queue. -/
structure InFlight (o : ObjectId) (epoch : UInt64) (bytes : Option Bytes) (channel : ObjectId)
    (i : ℕ) (m : Message) (tr : List SystemEntry) (s : System) : Prop where
  current : s.kernel.epochs[o]? = some epoch
  stored : s.memory.regions[o]? = bytes
  seen : ∀ c, Seen tr c → Stale o epoch c
  position : ∃ queue, s.channels.queues[channel]? = some queue ∧ queue[i]? = some m
  elsewhere : ∀ (o' : ObjectId) (queue : List Message) (j : ℕ) (m' : Message),
    s.channels.queues[o']? = some queue → queue[j]? = some m' → ¬(o' = channel ∧ j = i) →
    ∀ c ∈ m'.capabilities, Stale o epoch c

theorem seen_snoc {tr : List SystemEntry} {e : SystemEntry} {c : Capability} :
    Seen (tr ++ [e]) c ↔ Seen tr c ∨ e.returned = some c ∨ e.after.sched.Holds c := by
  simp [Seen, or_and_right, exists_or]

section DeadObject
variable {s s' : System} {call : Call} {outcome : Outcome} {o : ObjectId}

/-- No capability a client can use is live for `o`, and `o` is not the next object. -/
structure Unreachable (s : System) (call : Call) (o : ObjectId) : Prop where
  args : ∀ c ∈ call.capabilities, c.object = o → ¬s.kernel.Live c
  held : ∀ c, s.sched.Holds c → c.object = o → ¬s.kernel.Live c
  next : (⟨s.kernel.nextId⟩ : ObjectId) ≠ o

theorem Unreachable.ne_of_live {c : Capability} (h : Unreachable s call o)
    (hc : c ∈ call.capabilities) (hl : s.kernel.Live c) : c.object ≠ o :=
  fun ho => h.args c hc ho hl

theorem Unreachable.moves {source : ProcessId} {p : Process} {batch : List (Grant × Capability)}
    (h : Unreachable s call o) (hp : s.sched.process source = some p)
    (hb : Resolved s.kernel p batch) :
    (moveObjects s.kernel batch).epochs[o]? = s.kernel.epochs[o]? := by
  apply moveObjects_epochs_of_notMem
  intro x hx hm ho
  obtain ⟨g, c⟩ := x
  cases g with
  | transfer a => cases hm
  | derive a r => cases hm
  | move a =>
    obtain ⟨hpa, hl, -⟩ := resolveGrant_move_iff.mp (hb.entries _ hx)
    exact h.held c ⟨source, p, a, hp, hpa⟩ ho hl

/-- A call leaves the epoch of an object it cannot reach as it was. -/
theorem Effect.epochs_frame (h : Effect s call outcome s') (hu : Unreachable s call o) :
    s'.kernel.epochs[o]? = s.kernel.epochs[o]? := by
  cases h with
  | newObject r => rw [Kernel.newObject_epochs, if_neg hu.next]
  | newChannel | newRegion | overflowed =>
    exact (s.kernel.newObject_epochs (.READ ||| .WRITE ||| .GRANT ||| .DESTROY) o).trans
      (if_neg hu.next)
  | revoked live _ | reissued live _ =>
    exact (Kernel.bump_epochs ..).trans (if_neg (hu.ne_of_live List.mem_cons_self live))
  | destroyedObject live _ | destroyedRegion live _ =>
    exact (Kernel.remove_epochs ..).trans (if_neg (hu.ne_of_live List.mem_cons_self live))
  | spawnedChild held resolved => exact hu.moves held resolved
  | sent _ held _ _ resolved => exact hu.moves held resolved
  | _ => rfl

theorem RegionRegistry.reclaim_getElem? (reg : RegionRegistry) {k : Kernel} {o : ObjectId}
    (ho : k.objectExists o = true) : (reg.reclaim k).2.regions[o]? = reg.regions[o]? := by
  simp only [reclaim, Std.ExtTreeMap.getElem?_filter', ho]
  cases reg.regions[o]? <;> rfl

/-- A call leaves the bytes of an existing object it cannot reach as they were. -/
theorem Effect.regions_frame (h : Effect s call outcome s') (hu : Unreachable s call o)
    (hex : s.kernel.objectExists o = true) : s'.memory.regions[o]? = s.memory.regions[o]? := by
  cases h with
  | newRegion n =>
    exact (FiniteMaps.getElem?_insert ..).trans (if_neg hu.next)
  | wrote _ _ _ live | updated _ _ _ live =>
    exact (FiniteMaps.getElem?_insert ..).trans (if_neg (hu.ne_of_live List.mem_cons_self live))
  | destroyedRegion live _ =>
    exact (FiniteMaps.getElem?_erase ..).trans (if_neg (hu.ne_of_live List.mem_cons_self live))
  | reclaimed => exact s.memory.reclaim_getElem? hex
  | _ => rfl

/-- A capability for an object out of reach that a call shows its client was held before, was an
argument, or came out of a queue. -/
theorem Effect.shown (h : Effect s call outcome s') (hu : Unreachable s call o) {c : Capability}
    (hc : returned ⟨s, call, outcome, s'⟩ = some c ∨ s'.sched.Holds c) (ho : c.object = o) :
    s.sched.Holds c ∨ c ∈ call.capabilities ∨
      ∃ channel m rest, pops channel ⟨s, call, outcome, s'⟩ = true ∧
        s.channels.queues[channel]? = some (m :: rest) ∧ c ∈ m.capabilities := by
  have hdeliver : ∀ source p batch, s.sched.process source = some p → Resolved s.kernel p batch →
      c ∈ batch.map deliver → s.sched.Holds c := by
    intro source p batch hp hb hc
    obtain ⟨a, ha⟩ := held_of_deliver hb
      (fun a c hpa => hu.held c ⟨source, p, a, hp, hpa⟩) hc ho
    exact ⟨source, p, a, hp, ha⟩
  cases h with
  | newObject | newChannel | newRegion =>
    rcases hc with hc | hc
    · obtain rfl := Option.some.inj hc
      exact absurd ho hu.next
    · exact Or.inl hc
  | derived live _ _ | reissued live _ =>
    rcases hc with hc | hc
    · obtain rfl := Option.some.inj hc
      have hne := hu.ne_of_live List.mem_cons_self live
      exact absurd ho hne
    · exact Or.inl hc
  | spawned initial =>
    rcases hc with hc | hc
    · cases hc
    · exact (Scheduler.holds_spawn hc).imp id Or.inl
  | @spawnedChild parent p batch held resolved =>
    rcases hc with hc | hc
    · cases hc
    · rcases Scheduler.holds_enlist hc with hc | ⟨a, ha⟩
      · rcases Scheduler.holds_setProcess (s := s.sched) hc with hc | ⟨a, ha⟩
        · exact Or.inl hc
        · exact Or.inl ⟨parent, p, a, held, Process.capability_of_depart ha⟩
      · exact Or.inl (hdeliver parent p batch held resolved (Scheduler.capability_newborn ha))
  | @sent channel sender p queue batch data held live queued resolved =>
    rcases hc with hc | hc
    · cases hc
    · rcases Scheduler.holds_setProcess hc with hc | ⟨a, ha⟩
      · exact Or.inl hc
      · exact Or.inl ⟨sender, p, a, held, Process.capability_of_depart ha⟩
  | @received channel receiver p m queue held live queued =>
    rcases hc with hc | hc
    · cases hc
    · rcases Scheduler.holds_setProcess hc with hc | ⟨a, ha⟩
      · exact Or.inl hc
      · rcases Process.capability_grantAll (Process.recordReceive_capability .. ▸ ha) with hc | hc
        · exact Or.inl ⟨receiver, p, a, held, hc⟩
        · exact Or.inr (Or.inr ⟨channel.object, m, queue, by simp [pops], queued, hc⟩)
  | @recorded id p held =>
    rcases hc with hc | hc
    · cases hc
    · rcases Scheduler.holds_setProcess hc with hc | ⟨a, ha⟩
      · exact Or.inl hc
      · exact Or.inl ⟨id, p, a, held, ha⟩
  | @granted id p cap held =>
    rcases hc with hc | hc
    · cases hc
    · rcases Scheduler.holds_setProcess hc with hc | ⟨a, ha⟩
      · exact Or.inl hc
      · rw [Process.capability_grant] at ha
        split at ha
        · exact Or.inr (Or.inl (List.mem_singleton.mpr (Option.some.inj ha).symm))
        · exact Or.inl ⟨id, p, a, held, ha⟩
  | turn =>
    rcases hc with hc | hc
    · cases hc
    · exact Or.inl (Scheduler.holds_scheduleNext hc)
  | failed | overflowed | revoked | destroyedObject | receivedNothing | read | wrote | inspected
  | updated | sized | destroyedRegion | reclaimed =>
    rcases hc with hc | hc
    · cases hc
    · exact Or.inl hc

end DeadObject

section Positions
variable {s s' : System} {call : Call} {outcome : Outcome}

theorem pops_failed (channel : ObjectId) (s s' : System) (call : Call) (e : Stop ApiError) :
    pops channel ⟨s, call, .error e, s'⟩ = false := by
  cases call <;> rfl

/-- A queued message stays queued, one place further to the front when the head is received. -/
theorem Effect.queued_after (h : Effect s call outcome s') {channel : ObjectId}
    {queue : List Message} {i : ℕ} {m : Message} (hq : s.channels.queues[channel]? = some queue)
    (hm : queue[i]? = some m) (hnext : (⟨s.kernel.nextId⟩ : ObjectId) ≠ channel)
    (hpop : pops channel ⟨s, call, outcome, s'⟩ = true → i ≠ 0) :
    ∃ queue', s'.channels.queues[channel]? = some queue' ∧
      queue'[if pops channel ⟨s, call, outcome, s'⟩ then i - 1 else i]? = some m := by
  cases h with
  | failed call e => exact ⟨queue, hq, by rwa [pops_failed]⟩
  | newChannel => exact ⟨queue, (FiniteMaps.getElem?_insert ..).trans ((if_neg hnext).trans hq), hm⟩
  | @sent ch sender p q batch data held live queued resolved =>
    by_cases hch : ch.object = channel
    · subst hch
      obtain rfl := Option.some.inj (queued.symm.trans hq)
      refine ⟨_, (FiniteMaps.getElem?_insert ..).trans (if_pos rfl), ?_⟩
      obtain ⟨hi, -⟩ := List.getElem?_eq_some_iff.mp hm
      simpa [pops, List.getElem?_append_left hi] using hm
    · exact ⟨queue, (FiniteMaps.getElem?_insert ..).trans ((if_neg hch).trans hq), hm⟩
  | @received ch receiver p head q held live queued =>
    by_cases hch : ch.object = channel
    · subst hch
      obtain rfl := Option.some.inj (queued.symm.trans hq)
      have hi : i ≠ 0 := hpop (by simp [pops])
      refine ⟨q, (FiniteMaps.getElem?_insert ..).trans (if_pos rfl), ?_⟩
      obtain ⟨i, rfl⟩ := Nat.exists_eq_succ_of_ne_zero hi
      simpa [pops] using hm
    · refine ⟨queue, (FiniteMaps.getElem?_insert ..).trans ((if_neg hch).trans hq), ?_⟩
      simpa [pops, hch] using hm
  | _ => exact ⟨queue, hq, hm⟩

/-- A message queued after a call was queued before it, or is the one the call sent. -/
theorem Effect.queued_before (h : Effect s call outcome s') {channel : ObjectId}
    {queue' : List Message} {j : ℕ} {m : Message}
    (hq : s'.channels.queues[channel]? = some queue') (hm : queue'[j]? = some m) :
    (∃ queue, s.channels.queues[channel]? = some queue ∧
      queue[if pops channel ⟨s, call, outcome, s'⟩ then j + 1 else j]? = some m) ∨
    ∃ sender p batch, s.sched.process sender = some p ∧ Resolved s.kernel p batch ∧
      m.capabilities = batch.map deliver := by
  cases h with
  | failed call e => exact Or.inl ⟨queue', hq, by rwa [pops_failed]⟩
  | newChannel =>
    rw [ChannelRegistry.newChannel, FiniteMaps.getElem?_insert] at hq
    split at hq
    · obtain rfl := Option.some.inj hq
      simp at hm
    · exact Or.inl ⟨queue', hq, hm⟩
  | @sent ch sender p q batch data held live queued resolved =>
    rw [FiniteMaps.getElem?_insert] at hq
    split at hq
    · next hch =>
      subst hch
      obtain rfl := Option.some.inj hq
      rcases Nat.lt_or_ge j q.length with hj | hj
      · rw [List.getElem?_append_left hj] at hm
        exact Or.inl ⟨q, queued, hm⟩
      · rw [List.getElem?_append_right hj, List.getElem?_singleton] at hm
        split at hm
        · obtain rfl := Option.some.inj hm
          exact Or.inr ⟨sender, p, batch, held, resolved, rfl⟩
        · cases hm
    · exact Or.inl ⟨queue', hq, hm⟩
  | @received ch receiver p head q held live queued =>
    rw [FiniteMaps.getElem?_insert] at hq
    split at hq
    · next hch =>
      subst hch
      obtain rfl := Option.some.inj hq
      exact Or.inl ⟨head :: q, queued, by simpa [pops] using hm⟩
    · next hch => exact Or.inl ⟨queue', hq, by simpa [pops, hch] using hm⟩
  | _ => exact Or.inl ⟨queue', hq, hm⟩

end Positions

namespace InFlight
variable {o channel : ObjectId} {epoch : UInt64} {bytes : Option Bytes} {i : ℕ} {m : Message}
  {tr : List SystemEntry} {s : System}

theorem not_live (h : InFlight o epoch bytes channel i m tr s) {c : Capability}
    (hc : Stale o epoch c) (ho : c.object = o) : ¬s.kernel.Live c := by
  intro hl
  unfold Kernel.Live at hl
  rw [ho, h.current] at hl
  exact hc ho (Option.some.inj hl).symm

theorem unreachable (h : InFlight o epoch bytes channel i m tr s) (hrun : SystemRun tr s)
    {call : Call} (hok : Authorised tr call) (hnext : (⟨s.kernel.nextId⟩ : ObjectId) ≠ o) :
    Unreachable s call o where
  args c hc ho := h.not_live (h.seen c (hok c hc)) ho
  held c hc ho := h.not_live (h.seen c (hrun.seen_of_holds hc)) ho
  next := hnext

/-- One call keeps an object in flight, unless it receives the message. -/
theorem step (h : InFlight o epoch bytes channel i m tr s) (hrun : SystemRun tr s) {call : Call}
    (hok : Authorised tr call) (hnext : (⟨s.kernel.nextId⟩ : ObjectId) ≠ o)
    (hchannel : (⟨s.kernel.nextId⟩ : ObjectId) ≠ channel)
    (hpop : pops channel (entry System.step s call) = true → i ≠ 0) :
    InFlight o epoch bytes channel
      (if pops channel (entry System.step s call) then i - 1 else i) m
      (tr ++ [entry System.step s call]) (s.step call).2 := by
  have heffect := s.step_effect call
  have hu := h.unreachable hrun hok hnext
  have hex : s.kernel.objectExists o = true := by
    rw [Kernel.objectExists, Std.ExtTreeMap.contains_eq_isSome_getElem?, h.current]
    rfl
  obtain ⟨queue, hq, hm⟩ := h.position
  refine ⟨?_, ?_, ?_, ?_, ?_⟩
  · rw [heffect.epochs_frame hu]
    exact h.current
  · rw [heffect.regions_frame hu hex]
    exact h.stored
  · intro c hc ho
    rcases seen_snoc.mp hc with hc | hc
    · exact h.seen c hc ho
    · rcases heffect.shown hu hc ho with hc | hc | ⟨channel', m', rest, hp, hq', hc⟩
      · exact h.seen c (hrun.seen_of_holds hc) ho
      · exact h.seen c (hok c hc) ho
      · refine h.elsewhere channel' (m' :: rest) 0 m' hq' rfl ?_ c hc ho
        rintro ⟨rfl, h0⟩
        exact hpop hp h0.symm
  · exact heffect.queued_after hq hm hchannel hpop
  · intro o' queue' j m' hq' hm' hne c hc
    rcases heffect.queued_before hq' hm' with ⟨before, hb, hmb⟩ | ⟨sender, p, batch, hp, hr, hcaps⟩
    · refine h.elsewhere o' before _ m' hb hmb ?_ c hc
      rintro ⟨rfl, hj⟩
      apply hne
      refine ⟨rfl, ?_⟩
      change (if pops o' (entry System.step s call) then j + 1 else j) = i at hj
      split at hj
      · next hp =>
        rw [if_pos hp]
        omega
      · next hp =>
        rw [if_neg hp]
        omega
    · intro ho
      rw [hcaps] at hc
      obtain ⟨a, ha⟩ := held_of_deliver hr
        (fun a c hpa => hu.held c ⟨sender, p, a, hp, hpa⟩) hc ho
      exact h.seen c (hrun.seen_of_holds ⟨sender, p, a, hp, ha⟩) ho

/-- An object stays in flight through every continuation of the run that does not receive the
message. -/
theorem run {later : List SystemEntry} {s' : System} (h : InFlight o epoch bytes channel i m tr s)
    (hrun : SystemRun tr s) (hlater : Run System.step (fun l => Authorised (tr ++ l)) s later s')
    (hf : Fits (kernelLog (tr ++ later))) (ho : ∃ c ∈ minted (kernelLog tr), c.object = o)
    (hchannel : ∃ c ∈ minted (kernelLog tr), c.object = channel)
    (hpops : later.countP (pops channel) ≤ i) :
    InFlight o epoch bytes channel (i - later.countP (pops channel)) m (tr ++ later) s' := by
  induction hlater with
  | start => simpa using h
  | @call later s' hlater call ok ih =>
    rw [List.countP_append, List.countP_singleton] at hpops ⊢
    rw [← List.append_assoc] at hf ⊢
    rw [kernelLog_append] at hf
    have hprior := ih hf.of_append (by omega)
    have hrun' : SystemRun (tr ++ later) s' := hrun.append hlater
    obtain ⟨hlog, -⟩ := hrun'.log
    have hne : ∀ a : ObjectId, (∃ c ∈ minted (kernelLog tr), c.object = a) →
        (⟨s'.kernel.nextId⟩ : ObjectId) ≠ a := by
      intro a ⟨c, hc, hca⟩
      rw [← hca]
      apply hlog.next_ne hf.of_append
      rw [kernelLog_append, mem_minted_append]
      exact Or.inl hc
    have hstep := hprior.step hrun' ok (hne o ho) (hne channel hchannel) fun hp => by
      rw [if_pos hp] at hpops
      omega
    split at hstep
    · next hp =>
      rw [if_pos hp]
      rwa [Nat.sub_sub] at hstep
    · next hp => rwa [if_neg hp]

end InFlight

/-- At the moment of a send, a moved object is in flight in the message sent. -/
theorem Handover.inFlight {earlier : List SystemEntry} {e : SystemEntry} {source : ProcessId}
    {p : Process} {batch : List (Grant × Capability)} (hrun : SystemRun earlier e.before)
    (hover : Handover e source p batch) (hf : Fits (kernelLog (earlier ++ [e]))) {a : Handle}
    {moved : Capability} (hx : (.move a, moved) ∈ batch) {channel : ObjectId}
    {queue : List Message} {m : Message}
    (hholds : ∀ c, e.after.sched.Holds c → e.before.sched.Holds c)
    (hq : e.before.channels.queues[channel]? = some queue)
    (hafter : e.after.channels.queues = e.before.channels.queues.insert channel (queue ++ [m])) :
    InFlight moved.object (moved.epoch + 1) e.after.memory.regions[moved.object]? channel
      queue.length m (earlier ++ [e]) e.after := by
  have hstale : ∀ c, Produced earlier c → Stale moved.object (moved.epoch + 1) c :=
    fun c hc => hover.stale hrun hf hx hc
  refine ⟨hover.current hx, rfl, ?_, ?_, ?_⟩
  · intro c hc
    rcases seen_snoc.mp hc with hc | hc | hc
    · exact hstale c hc.produced
    · rw [hover.returned] at hc
      cases hc
    · exact hstale c (hrun.seen_of_holds (hholds c hc)).produced
  · refine ⟨queue ++ [m], ?_, by simp⟩
    rw [hafter]
    exact (FiniteMaps.getElem?_insert ..).trans (if_pos rfl)
  · intro o' queue' j m' hq' hm' hne c hc
    have hcarries : ∀ q : List Message, e.before.channels.queues[o']? = some q → m' ∈ q →
        e.before.channels.Carries c := fun q hq hm => ⟨o', q, hq, m', hm, hc⟩
    rw [hafter, FiniteMaps.getElem?_insert] at hq'
    split at hq'
    · next heq =>
      subst heq
      obtain rfl := Option.some.inj hq'
      rcases Nat.lt_or_ge j queue.length with hj | hj
      · rw [List.getElem?_append_left hj] at hm'
        exact hstale c (hrun.produced_of_carries (hcarries _ hq (List.mem_of_getElem? hm')))
      · rw [List.getElem?_append_right hj, List.getElem?_singleton] at hm'
        split at hm'
        · exact absurd ⟨rfl, by omega⟩ hne
        · cases hm'
    · exact hstale c (hrun.produced_of_carries (hcarries _ hq' (List.mem_of_getElem? hm')))

/-- Exclusive handoff. When a call that moves a handle succeeds, one capability for the moved
object is live: the fresh one, in the message or granted to the child, with the rights of the moved
one. After a send, and until that message is received, nobody can operate on the object. -/
theorem SystemRun.exclusive_handoff {earlier later : List SystemEntry} {e : SystemEntry}
    {s : System} (h : SystemRun (earlier ++ e :: later) s)
    (hf : Fits (kernelLog (earlier ++ e :: later))) {source : ProcessId} {grants : List Grant}
    {a : Handle} (hbatch : e.call.batch = some (source, grants)) (hmove : .move a ∈ grants)
    (hok : e.outcome.isOk = true) :
    ∃ p moved, e.before.sched.process source = some p ∧ p.capability a = some moved ∧
      e.HandsOver ∧
      e.delivered.filter (fun c => c.object = moved.object) =
        [⟨moved.object, moved.rights, moved.epoch + 1⟩] ∧
      Produced (earlier ++ [e]) ⟨moved.object, moved.rights, moved.epoch + 1⟩ ∧
      (∀ c, Produced (earlier ++ [e]) c → c.object = moved.object →
        (e.after.kernel.check c .NONE = .ok () ↔
          c = ⟨moved.object, moved.rights, moved.epoch + 1⟩)) ∧
      ∀ (channel : Capability) (data : Int64), e.call = .send channel source grants data →
        ∃ queue m, e.before.channels.queues[channel.object]? = some queue ∧
          e.after.channels.queues[channel.object]? = some (queue ++ [m]) ∧
          m.capabilities = e.delivered ∧
          (later.countP (pops channel.object) ≤ queue.length →
            (∃ queue', s.channels.queues[channel.object]? = some queue' ∧
              queue'[queue.length - later.countP (pops channel.object)]? = some m) ∧
            (∀ c, Seen (earlier ++ e :: later) c → c.object = moved.object →
              ∀ r, s.kernel.check c r ≠ .ok ()) ∧
            (∀ call, Authorised (earlier ++ e :: later) call → call.OperatesOn s moved.object →
              (∃ er, (s.step call).1 = .error (.err er)) ∧ (s.step call).2 = s) ∧
            s.kernel.epochs[moved.object]? = e.after.kernel.epochs[moved.object]? ∧
            s.memory.regions[moved.object]? = e.after.memory.regions[moved.object]?) := by
  obtain ⟨hrun, hauth, he, hafter, hlater⟩ := h.split_cons
  have hrune : SystemRun (earlier ++ [e]) e.after := hafter
  have heffect : Effect e.before e.call e.outcome e.after := by
    rw [he]
    exact e.before.step_effect e.call
  obtain ⟨p, batch, rfl, hover⟩ := heffect.handover hbatch hok
  obtain ⟨⟨g, moved⟩, hx, rfl⟩ := List.mem_map.mp hmove
  obtain ⟨hpa, -⟩ := resolveGrant_move_iff.mp (hover.resolved.entries _ hx)
  have hsplit : earlier ++ e :: later = (earlier ++ [e]) ++ later := List.append_cons ..
  rw [hsplit] at h hf
  have hfe : Fits (kernelLog (earlier ++ [e])) := by
    rw [kernelLog_append] at hf
    exact hf.of_append
  have hminted : ⟨moved.object, moved.rights, moved.epoch + 1⟩ ∈ minted e.kernelEvents := by
    rw [hover.events]
    exact List.mem_filterMap.mpr ⟨_, hover.resolved.reissued_mem hx, rfl⟩
  have hfresh : Produced (earlier ++ [e]) ⟨moved.object, moved.rights, moved.epoch + 1⟩ :=
    ⟨e, List.mem_append_right _ List.mem_cons_self, Or.inr (Or.inr (Or.inr hminted))⟩
  refine ⟨p, moved, hover.held, hpa, hover.handsOver, ?_, hfresh, ?_, ?_⟩
  · rw [hover.delivered]
    exact hover.resolved.filter_moved hx rfl
  · intro c hc ho
    rw [Kernel.check_NONE]
    exact hover.only_fresh hrun hfe hx hc ho
  · intro channel data hcall
    obtain ⟨hlive, hholds, queue, m, hm, hq, hafter⟩ := hover.sends channel _ data hcall
    refine ⟨queue, m, hq, ?_, hm.trans hover.delivered.symm, fun hpops => ?_⟩
    · rw [hafter]
      exact (FiniteMaps.getElem?_insert ..).trans (if_pos rfl)
    have hfly := hover.inFlight hrun hfe hx hholds hq hafter
    have hknown := hrune.log.2.1
    have hseen : Seen earlier channel := hauth channel (by rw [hcall]; exact List.mem_cons_self)
    have hchannel : ∃ c ∈ minted (kernelLog (earlier ++ [e])), c.object = channel.object :=
      ⟨channel, hknown _ (hseen.append [e]).produced, rfl⟩
    have hend := hfly.run hrune hlater hf ⟨_, hknown _ hfresh, rfl⟩ hchannel hpops
    have hdead : ∀ c, Seen ((earlier ++ [e]) ++ later) c → c.object = moved.object →
        ¬s.kernel.Live c := fun c hc ho => hend.not_live (hend.seen c hc) ho
    rw [hsplit]
    refine ⟨hend.position, ?_, ?_, ?_, ?_⟩
    · intro c hc ho r hcheck
      exact hdead c hc ho (Kernel.check_eq_ok_iff.mp hcheck).1
    · intro call hauth huse
      exact h.operation_fails hdead hauth huse
    · rw [hend.current, hfly.current]
    · rw [hend.stored]

/-- A region moved through a channel cannot be read by its sender while the message is queued. -/
theorem SystemRun.exclusive_handoff_region :
    let channel : Capability := ⟨⟨0⟩, .READ ||| .WRITE ||| .GRANT ||| .DESTROY, 0⟩
    let region : Capability := ⟨⟨1⟩, .READ ||| .WRITE ||| .GRANT ||| .DESTROY, 0⟩
    let before : List Call := [.newChannel, .newRegion 4, .spawn [channel, region]]
    let handoff : Call := .send channel ⟨0⟩ [.move ⟨1⟩] 7
    let s := final System.step .new (before ++ [handoff, .write region 0 [1]])
    (s.step (.read region 0 4)).2 = s ∧ s.memory.regions[region.object]? = some [0, 0, 0, 0] := by
  intro channel region before handoff s
  have hrun : SystemRun (trace System.step .new (before ++ [handoff, .write region 0 [1]])) s :=
    Run.of_calls (by decide +kernel)
  have hfits : Fits (kernelLog (trace System.step .new (before ++ [handoff, .write region 0 [1]]))) :=
    ⟨by decide +kernel, by decide +kernel⟩
  have hread : Authorised (trace System.step .new (before ++ [handoff, .write region 0 [1]]))
      (.read region 0 4) := by decide +kernel
  rw [trace_append] at hrun hfits hread
  obtain ⟨p, moved, hp, hmoved, -, -, -, -, hsend⟩ :=
    hrun.exclusive_handoff hfits (a := ⟨1⟩) rfl List.mem_cons_self (by decide +kernel)
  have hheld : ((final System.step .new before).sched.process ⟨0⟩).bind
      (fun p => p.capability ⟨1⟩) = some region := by decide +kernel
  have hregion : moved = region := by
    rw [show (final System.step .new before).sched.process ⟨0⟩ = some p from hp] at hheld
    exact Option.some.inj (hmoved.symm.trans hheld)
  subst hregion
  obtain ⟨queue, m, -, -, -, hlater⟩ := hsend channel 7 rfl
  obtain ⟨-, -, hfail, -, hbytes⟩ := hlater
    (le_trans (b := 0) (by decide +kernel) (Nat.zero_le _))
  exact ⟨(hfail _ hread (Or.inl ⟨_, rfl, rfl⟩)).2, hbytes.trans (by decide +kernel)⟩

end Muaddib
