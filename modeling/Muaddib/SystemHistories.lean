import Muaddib.SystemCalls

/-! # Histories of the system and the kernel calls inside them

Clients keep a copy of every capability they ever saw: what a call returned, and what some
process's table held. They cannot look into a queue. -/
namespace Muaddib
open LabelledRuns

abbrev SystemEntry := Entry System Call Outcome

/-- Some process's table holds `c`. -/
def Scheduler.Holds (s : Scheduler) (c : Capability) : Prop :=
  ∃ id p h, s.process id = some p ∧ p.capability h = some c

/-- Some queued message carries `c`. -/
def ChannelRegistry.Carries (reg : ChannelRegistry) (c : Capability) : Prop :=
  ∃ (o : ObjectId) (queue : List Message), reg.queues[o]? = some queue ∧
    ∃ m ∈ queue, c ∈ m.capabilities

/-- The table of a process, empty for a process that does not exist. -/
def System.table (s : System) (id : ProcessId) (h : Handle) : Option Capability :=
  (s.sched.process id).bind fun p => p.capability h

namespace SystemEntry

def returned (e : SystemEntry) : Option Capability :=
  match e.outcome with
  | .ok (.capability c) => some c
  | _ => none

/-- The event of a grant that is derived while a batch is resolved. -/
def deriveEvent (p : Process) : Grant → Option KernelEvent
  | .derive h r => (p.capability h).map fun held => .derived held ⟨held.object, r, held.epoch⟩
  | .transfer _ | .move _ => none

/-- The event of a grant that is reissued while a batch is applied. -/
def moveEvent (p : Process) : Grant → Option KernelEvent
  | .move h => (p.capability h).map fun held =>
    .reissued held ⟨held.object, held.rights, held.epoch + 1⟩
  | .transfer _ | .derive _ _ => none

/-- All kernel calls a batch makes: the derivations first, then the reissues. -/
def batchEvents (p : Process) (grants : List Grant) : List KernelEvent :=
  grants.filterMap (deriveEvent p) ++ grants.filterMap (moveEvent p)

/-- The successful kernel calls made by one call on the system. -/
def kernelEvents (e : SystemEntry) : List KernelEvent :=
  match e.call, e.outcome with
  | .newObject _, .ok (.capability c) | .newChannel, .ok (.capability c)
  | .newRegion _, .ok (.capability c) => [.created c]
  -- the kernel makes the object before the allocation panics
  | .newRegion _, .error (.panic _) => [.created (e.before.kernel.newObject fullRights).1]
  | .derive held _, .ok (.capability c) => [.derived held c]
  | .revoke held, .ok _ => [.revoked held]
  | .reissue held, .ok (.capability c) => [.reissued held c]
  | .destroyObject held, .ok _ | .destroyRegion held, .ok _ => [.destroyed held]
  | .spawnChild source grants, .ok _ | .send _ source grants _, .ok _ =>
    match e.before.sched.process source with
    | none => []
    | some p => batchEvents p grants
  | _, _ => []

/-- The capabilities a call hands over, computed from the state before it. -/
def delivered (e : SystemEntry) : List Capability :=
  match e.call with
  | .spawnChild source grants | .send _ source grants _ =>
    match e.before.sched.process source with
    | none => []
    | some p =>
      match resolveGrants e.before.kernel p grants with
      | .error _ => []
      | .ok resolved =>
        match (applyGrants e.before.kernel p grants resolved).1 with
        | .error _ => []
        | .ok delivered => delivered
  | _ => []

end SystemEntry

/-- Some client saw `c`. -/
def Seen (tr : List SystemEntry) (c : Capability) : Prop :=
  ∃ e ∈ tr, e.returned = some c ∨ e.after.sched.Holds c

/-- `c` was returned by a call or minted inside one, or was in a table or a queue at some time. -/
def Produced (tr : List SystemEntry) (c : Capability) : Prop :=
  ∃ e ∈ tr, e.returned = some c ∨ e.after.sched.Holds c ∨ e.after.channels.Carries c ∨
    c ∈ minted e.kernelEvents

def Call.capabilities : Call → List Capability
  | .derive cap _ | .revoke cap | .reissue cap | .destroyObject cap | .send cap .. | .receive cap _
  | .read cap .. | .write cap .. | .inspect cap _ | .update cap _ | .size cap
  | .destroyRegion cap | .grant _ cap => [cap]
  | .spawn initial => initial
  | .newObject _ | .newChannel | .newRegion _ | .spawnChild .. | .reclaim | .recordLocalEvent _
  | .scheduleNext => []

def Call.presented : Call → Option Capability
  | .derive cap _ | .revoke cap | .reissue cap | .destroyObject cap | .send cap .. | .receive cap _
  | .read cap .. | .write cap .. | .inspect cap _ | .update cap _ | .size cap
  | .destroyRegion cap => some cap
  | .grant .. | .spawn _ | .newObject _ | .newChannel | .newRegion _ | .spawnChild .. | .reclaim
  | .recordLocalEvent _ | .scheduleNext => none

def Call.regionAccess : Call → Option Capability
  | .read cap _ _ | .write cap _ _ | .inspect cap _ | .update cap _ | .size cap
  | .destroyRegion cap => some cap
  | _ => none

/-- The source and the grants of a call that hands a batch over. -/
def Call.batch : Call → Option (ProcessId × List Grant)
  | .spawnChild source grants | .send _ source grants _ => some (source, grants)
  | _ => none

/-- The call operates on `o`: it presents a capability for `o`, or its batch derives or moves one. -/
def Call.OperatesOn (s : System) (o : ObjectId) (call : Call) : Prop :=
  (∃ cap, call.presented = some cap ∧ cap.object = o) ∨
    ∃ source grants p g c, call.batch = some (source, grants) ∧ s.sched.process source = some p ∧
      g ∈ grants ∧ (∀ h, g ≠ .transfer h) ∧ p.capability g.handle = some c ∧ c.object = o

/-- Capabilities cannot be made up: a call is made with capabilities its client saw. -/
def Authorised (tr : List SystemEntry) (call : Call) : Prop := ∀ c ∈ call.capabilities, Seen tr c

/-- The runs of a fresh system whose clients do not make capabilities up. -/
abbrev SystemRun : List SystemEntry → System → Prop := Run System.step Authorised .new

def kernelLog (tr : List SystemEntry) : List KernelEvent := tr.flatMap SystemEntry.kernelEvents

instance (s : Scheduler) (c : Capability) : Decidable (s.Holds c) :=
  decidable_of_iff (∃ x ∈ s.processes.toList, ∃ y ∈ x.2.capabilities.toList, y.2 = c) <| by
    simp only [Scheduler.Holds, Scheduler.process, Process.capability, Prod.exists,
      Std.ExtTreeMap.mem_toList_iff_getElem?_eq_some]
    constructor
    · rintro ⟨id, p, hp, h, c, hc, rfl⟩
      exact ⟨id, p, h, hp, hc⟩
    · rintro ⟨id, p, h, hp, hc⟩
      exact ⟨id, p, hp, h, c, hc, rfl⟩

instance (tr : List SystemEntry) (c : Capability) : Decidable (Seen tr c) :=
  inferInstanceAs (Decidable (∃ _ ∈ _, _ ∨ _))

instance (tr : List SystemEntry) (call : Call) : Decidable (Authorised tr call) :=
  inferInstanceAs (Decidable (∀ _ ∈ _, _))

theorem kernelLog_append (tr later : List SystemEntry) :
    kernelLog (tr ++ later) = kernelLog tr ++ kernelLog later := List.flatMap_append

theorem kernelLog_singleton (e : SystemEntry) : kernelLog [e] = e.kernelEvents := by
  simp [kernelLog]

theorem Seen.produced {tr : List SystemEntry} {c : Capability} (h : Seen tr c) :
    Produced tr c := by
  obtain ⟨e, he, hc⟩ := h
  exact ⟨e, he, hc.imp id Or.inl⟩

theorem Seen.append {tr : List SystemEntry} {c : Capability} (h : Seen tr c)
    (later : List SystemEntry) : Seen (tr ++ later) c := by
  obtain ⟨e, he, hc⟩ := h
  exact ⟨e, List.mem_append_left _ he, hc⟩

theorem produced_snoc {tr : List SystemEntry} {e : SystemEntry} {c : Capability} :
    Produced (tr ++ [e]) c ↔ Produced tr c ∨ e.returned = some c ∨ e.after.sched.Holds c ∨
      e.after.channels.Carries c ∨ c ∈ minted e.kernelEvents := by
  simp [Produced, or_and_right, exists_or]

theorem delivered_of_resolved {s s' : System} {call : Call} {outcome : Outcome} {source : ProcessId}
    {p : Process} {batch : List (Grant × Capability)} (held : s.sched.process source = some p)
    (resolved : Resolved s.kernel p batch) (hb : call.batch = some (source, batch.map Prod.fst)) :
    SystemEntry.delivered ⟨s, call, outcome, s'⟩ = batch.map deliver := by
  have hresolve := resolveGrants_eq_ok_iff.mpr ⟨batch, resolved, rfl, rfl⟩
  cases call with
  | spawnChild parent grants | send channel sender grants data =>
    obtain ⟨rfl, rfl⟩ : _ = source ∧ grants = batch.map Prod.fst := by simpa [Call.batch] using hb
    simp only [SystemEntry.delivered, held, hresolve, applyGrants_of_resolved resolved]
  | _ => cases hb

section Sources
variable {c : Capability}

theorem Process.capability_grantAll {p : Process} {caps : List Capability} {h : Handle}
    (hc : (p.grantAll caps).2.capability h = some c) : p.capability h = some c ∨ c ∈ caps := by
  induction caps generalizing p with
  | nil => exact Or.inl hc
  | cons a caps ih =>
    rcases ih (p := (p.grant a).2) hc with hc | hc
    · rw [Process.capability_grant] at hc
      split at hc
      · exact Or.inr (Option.some.inj hc ▸ List.mem_cons_self)
      · exact Or.inl hc
    · exact Or.inr (List.mem_cons_of_mem a hc)

theorem Scheduler.holds_setProcess {s : Scheduler} {id : ProcessId} {p : Process}
    (h : (s.setProcess id p).Holds c) : s.Holds c ∨ ∃ a, p.capability a = some c := by
  obtain ⟨i, q, a, hq, hc⟩ := h
  rw [process, setProcess, FiniteMaps.getElem?_insert] at hq
  split at hq
  · exact Or.inr ⟨a, Option.some.inj hq ▸ hc⟩
  · exact Or.inl ⟨i, q, a, hq, hc⟩

theorem Scheduler.holds_enlist {s : Scheduler} {id : ProcessId} {p : Process}
    (h : (s.enlist id p).Holds c) : s.Holds c ∨ ∃ a, p.capability a = some c := by
  obtain ⟨i, q, a, hq, hc⟩ := h
  rw [process, enlist, FiniteMaps.getElem?_insert] at hq
  split at hq
  · exact Or.inr ⟨a, Option.some.inj hq ▸ hc⟩
  · exact Or.inl ⟨i, q, a, hq, hc⟩

theorem Scheduler.holds_spawn {s : Scheduler} {initial : List Capability}
    (h : (s.spawn initial).2.Holds c) : s.Holds c ∨ c ∈ initial := by
  rcases Scheduler.holds_enlist h with h | ⟨a, ha⟩
  · exact Or.inl h
  · rcases Process.capability_grantAll ha with ha | ha
    · simp at ha
    · exact Or.inr ha

theorem Scheduler.holds_scheduleNext {s : Scheduler} (h : s.scheduleNext.2.Holds c) :
    s.Holds c := by
  obtain ⟨i, q, a, hq, hc⟩ := h
  rw [process, scheduleNext_processes] at hq
  exact ⟨i, q, a, hq, hc⟩

theorem Scheduler.capability_newborn {id : ProcessId} {st : EventStamp} {caps : List Capability}
    {h : Handle} (hc : (newborn id st caps).capability h = some c) : c ∈ caps := by
  rcases Process.capability_grantAll hc with hc | hc
  · simp at hc
  · exact hc

theorem Process.capability_of_depart {p : Process} {batch : List (Grant × Capability)} {h : Handle}
    (hc : (p.depart batch).capability h = some c) : p.capability h = some c := by
  rw [Process.capability_depart] at hc
  split at hc
  · cases hc
  · exact hc

theorem ChannelRegistry.carries_insert {reg : ChannelRegistry} {o : ObjectId} {queue : List Message}
    (h : ChannelRegistry.Carries ⟨reg.queues.insert o queue⟩ c) :
    reg.Carries c ∨ ∃ m ∈ queue, c ∈ m.capabilities := by
  obtain ⟨a, q, hq, hc⟩ := h
  rw [FiniteMaps.getElem?_insert] at hq
  split at hq
  · exact Or.inr (Option.some.inj hq ▸ hc)
  · exact Or.inl ⟨a, q, hq, hc⟩

end Sources

section Batches
variable {log : List KernelEvent} {k : Kernel} {p : Process}

open SystemEntry

private theorem log_derives (gs : List Grant) (caps : List Capability) (hlog : KernelLog log k)
    (hmem : ∀ h c, p.capability h = some c → c ∈ minted log)
    (hgs : List.Forall₂ (fun g c => resolveGrant k p g = .ok c) gs caps) :
    KernelLog (log ++ gs.filterMap (deriveEvent p)) k := by
  induction hgs generalizing log with
  | nil => simpa using hlog
  | @cons g c gs caps hg _ ih =>
    cases g with
    | transfer h => exact ih hlog hmem
    | move h => exact ih hlog hmem
    | derive h r =>
      obtain ⟨held, hp, hd⟩ := resolveGrant_derive_iff.mp hg
      obtain ⟨hl, hgr, hr, -⟩ := Kernel.derive_eq_ok_iff.mp hd
      have hev : deriveEvent p (.derive h r) =
          some (.derived held ⟨held.object, r, held.epoch⟩) := by
        simp [deriveEvent, hp]
      rw [List.filterMap_cons_some hev, List.append_cons]
      apply ih
      · refine hlog.snoc ?_ (.derived hl hgr hr)
        intro a ha
        obtain rfl := Option.some.inj ha
        exact hmem h held hp
      · intro a b hb
        exact mem_minted_append.mpr (Or.inl (hmem a b hb))

private theorem log_moves {batch : List (Grant × Capability)} (hlog : KernelLog log k)
    (hmem : ∀ h c, p.capability h = some c → c ∈ minted log) (hmov : Movable k batch)
    (hheld : ∀ x ∈ batch, ∀ h, x.1 = .move h → p.capability h = some x.2) :
    KernelLog (log ++ (batch.map Prod.fst).filterMap (moveEvent p)) (moveObjects k batch) := by
  induction batch generalizing log k with
  | nil => simpa [moveObjects] using hlog
  | cons x batch ih =>
    obtain ⟨g, c⟩ := x
    have hrest : ∀ x ∈ batch, ∀ h, x.1 = .move h → p.capability h = some x.2 :=
      fun y hy => hheld y (List.mem_cons_of_mem _ hy)
    cases g with
    | transfer h => exact ih hlog hmem hmov.moveObject hrest
    | derive h r => exact ih hlog hmem hmov.moveObject hrest
    | move h =>
      have hp : p.capability h = some c := hheld _ List.mem_cons_self h rfl
      obtain ⟨hl, hd⟩ := hmov.1 _ List.mem_cons_self rfl
      have hev : moveEvent p (.move h) =
          some (.reissued c ⟨c.object, c.rights, c.epoch + 1⟩) := by
        simp [moveEvent, hp]
      rw [List.map_cons, List.filterMap_cons_some hev, List.append_cons]
      refine ih ?_ ?_ hmov.moveObject hrest
      · refine hlog.snoc ?_ (.reissued hl hd)
        intro a ha
        obtain rfl := Option.some.inj ha
        exact hmem h c hp
      · intro a b hb
        exact mem_minted_append.mpr (Or.inl (hmem a b hb))

/-- An accepted batch extends a log by its derivations and reissues. -/
theorem KernelLog.batch {batch : List (Grant × Capability)} (hlog : KernelLog log k)
    (hmem : ∀ h c, p.capability h = some c → c ∈ minted log) (hb : Resolved k p batch) :
    KernelLog (log ++ batchEvents p (batch.map Prod.fst)) (moveObjects k batch) := by
  have hderives : KernelLog (log ++ (batch.map Prod.fst).filterMap (deriveEvent p)) k := by
    refine log_derives (batch.map Prod.fst) (batch.map Prod.snd) hlog hmem ?_
    rw [List.forall₂_map_left_iff, List.forall₂_map_right_iff, List.forall₂_same]
    exact hb.entries
  rw [batchEvents, ← List.append_assoc]
  refine log_moves hderives ?_ hb.movable ?_
  · intro h c hc
    exact mem_minted_append.mpr (Or.inl (hmem h c hc))
  · intro x hx h hg
    have he := hb.entries x hx
    rw [hg] at he
    exact (resolveGrant_move_iff.mp he).1

/-- What a batch delivers was in the table or is minted by the batch. -/
theorem mem_minted_of_deliver {batch : List (Grant × Capability)}
    (hmem : ∀ h c, p.capability h = some c → c ∈ minted log) (hb : Resolved k p batch)
    {c : Capability} (hc : c ∈ batch.map deliver) :
    c ∈ minted (log ++ batchEvents p (batch.map Prod.fst)) := by
  obtain ⟨⟨g, held⟩, hx, rfl⟩ := List.mem_map.mp hc
  have he := hb.entries _ hx
  have hg : g ∈ batch.map Prod.fst := List.mem_map.mpr ⟨_, hx, rfl⟩
  rw [mem_minted_append]
  cases g with
  | transfer h => exact Or.inl (hmem h held (resolveGrant_transfer_iff.mp he))
  | derive h r =>
    obtain ⟨c, hp, hd⟩ := resolveGrant_derive_iff.mp he
    obtain ⟨-, -, -, rfl⟩ := Kernel.derive_eq_ok_iff.mp hd
    refine Or.inr (List.mem_filterMap.mpr ⟨.derived c ⟨c.object, r, c.epoch⟩, ?_, rfl⟩)
    exact List.mem_append_left _ (List.mem_filterMap.mpr ⟨_, hg, by simp [deriveEvent, hp]⟩)
  | move h =>
    obtain ⟨hp, -⟩ := resolveGrant_move_iff.mp he
    refine Or.inr (List.mem_filterMap.mpr
      ⟨.reissued held ⟨held.object, held.rights, held.epoch + 1⟩, ?_, rfl⟩)
    exact List.mem_append_right _ (List.mem_filterMap.mpr ⟨_, hg, by simp [moveEvent, hp]⟩)

end Batches

theorem SystemEntry.kernelEvents_failed (s s' : System) (call : Call) (e : ApiError) :
    kernelEvents ⟨s, call, .error (.err e), s'⟩ = [] := by
  cases call <;> rfl

/-- The capabilities of a system lie in `known`. -/
structure KnownTo (known : List Capability) (s : System) : Prop where
  held : ∀ c, s.sched.Holds c → c ∈ known
  carried : ∀ c, s.channels.Carries c → c ∈ known

theorem KnownTo.mono {known known' : List Capability} {s : System} (h : KnownTo known s)
    (hsub : ∀ c ∈ known, c ∈ known') : KnownTo known' s :=
  ⟨fun c hc => hsub c (h.held c hc), fun c hc => hsub c (h.carried c hc)⟩

namespace Effect
variable {s s' : System} {call : Call} {outcome : Outcome} {log : List KernelEvent}

open SystemEntry

theorem kernelLog (h : Effect s call outcome s') (hlog : KernelLog log s.kernel)
    (hknown : KnownTo (minted log) s) (hargs : ∀ c ∈ call.capabilities, c ∈ minted log) :
    KernelLog (log ++ kernelEvents ⟨s, call, outcome, s'⟩) s'.kernel := by
  have harg : ∀ c, c ∈ call.capabilities → ∀ a, some c = some a → a ∈ minted log :=
    fun c hc a ha => Option.some.inj ha ▸ hargs c hc
  have hdone : KernelLog (log ++ []) s.kernel := by simpa using hlog
  cases h with
  | failed call e => rwa [kernelEvents_failed]
  | newObject r => exact hlog.snoc (by simp [KernelEvent.source]) (.created r)
  | newChannel | newRegion | overflowed =>
    exact hlog.snoc (by simp [KernelEvent.source]) (.created _)
  | derived live grant sub =>
    exact hlog.snoc (harg _ List.mem_cons_self) (.derived live grant sub)
  | revoked live destroy => exact hlog.snoc (harg _ List.mem_cons_self) (.revoked live destroy)
  | reissued live destroy => exact hlog.snoc (harg _ List.mem_cons_self) (.reissued live destroy)
  | destroyedObject live destroy | destroyedRegion live destroy =>
    exact hlog.snoc (harg _ List.mem_cons_self) (.destroyed live destroy)
  | @spawnedChild parent p batch held resolved =>
    simp only [kernelEvents, held]
    exact hlog.batch (fun a c hc => hknown.held c ⟨parent, p, a, held, hc⟩) resolved
  | @sent channel sender p queue batch data held live queued resolved =>
    simp only [kernelEvents, held]
    exact hlog.batch (fun a c hc => hknown.held c ⟨sender, p, a, held, hc⟩) resolved
  | spawned | receivedNothing | received | read | wrote | inspected | updated | sized | reclaimed
  | recorded | granted | turn => exact hdone

theorem known (h : Effect s call outcome s') (hknown : KnownTo (minted log) s)
    (hargs : ∀ c ∈ call.capabilities, c ∈ minted log) :
    (∀ c, returned ⟨s, call, outcome, s'⟩ = some c →
      c ∈ minted (log ++ kernelEvents ⟨s, call, outcome, s'⟩)) ∧
    KnownTo (minted (log ++ kernelEvents ⟨s, call, outcome, s'⟩)) s' := by
  have hold : ∀ c ∈ minted log, c ∈ minted (log ++ kernelEvents ⟨s, call, outcome, s'⟩) := by
    intro c hc
    exact mem_minted_append.mpr (Or.inl hc)
  have hsame := hknown.mono hold
  have hprocess : ∀ id p, s.sched.process id = some p → ∀ a c, p.capability a = some c →
      c ∈ minted log := fun id p hp a c hc => hknown.held c ⟨id, p, a, hp, hc⟩
  cases h with
  | failed call e => exact ⟨by simp [returned], hsame⟩
  | overflowed => exact ⟨by simp [returned], hsame.held, hsame.carried⟩
  | newObject _ | derived | reissued | newRegion _ =>
    refine ⟨fun c hc => ?_, hsame.held, hsame.carried⟩
    obtain rfl := Option.some.inj hc
    simp [kernelEvents, minted, KernelEvent.minted]
  | newChannel =>
    refine ⟨fun c hc => ?_, hsame.held, fun c hc => ?_⟩
    · obtain rfl := Option.some.inj hc
      simp [kernelEvents, minted, KernelEvent.minted]
    · rcases ChannelRegistry.carries_insert hc with hc | ⟨m, hm, -⟩
      · exact hsame.carried c hc
      · simp at hm
  | revoked | destroyedObject | destroyedRegion | receivedNothing | read | wrote | inspected | updated
  | sized | reclaimed => exact ⟨by simp [returned], hsame.held, hsame.carried⟩
  | turn =>
    refine ⟨by simp [returned], fun c hc => ?_, hsame.carried⟩
    exact hsame.held c (Scheduler.holds_scheduleNext hc)
  | spawned initial =>
    refine ⟨by simp [returned], fun c hc => ?_, hsame.carried⟩
    rcases Scheduler.holds_spawn hc with hc | hc
    · exact hsame.held c hc
    · exact hold c (hargs c hc)
  | @spawnedChild parent p batch held resolved =>
    refine ⟨by simp [returned], fun c hc => ?_, hsame.carried⟩
    simp only [kernelEvents, held]
    rcases Scheduler.holds_enlist hc with hc | ⟨a, ha⟩
    · rcases Scheduler.holds_setProcess (s := s.sched) hc with hc | ⟨a, ha⟩
      · simpa only [kernelEvents, held] using hsame.held c hc
      · have hc := hprocess parent p held a c (Process.capability_of_depart ha)
        simpa only [kernelEvents, held] using hold c hc
    · exact mem_minted_of_deliver (hprocess parent p held) resolved
        (Scheduler.capability_newborn ha)
  | @sent channel sender p queue batch data held live queued resolved =>
    refine ⟨by simp [returned], fun c hc => ?_, fun c hc => ?_⟩
    · rcases Scheduler.holds_setProcess hc with hc | ⟨a, ha⟩
      · exact hsame.held c hc
      · exact hold c (hprocess sender p held a c (Process.capability_of_depart ha))
    · rcases ChannelRegistry.carries_insert hc with hc | ⟨m, hm, hc⟩
      · exact hsame.carried c hc
      · rcases List.mem_append.mp hm with hm | hm
        · exact hsame.carried c ⟨channel.object, queue, queued, m, hm, hc⟩
        · obtain rfl := List.mem_singleton.mp hm
          simp only [kernelEvents, held]
          exact mem_minted_of_deliver (hprocess sender p held) resolved hc
  | @received channel receiver p m queue held live queued =>
    have hqueue : ∀ m' ∈ m :: queue, ∀ c ∈ m'.capabilities, s.channels.Carries c :=
      fun m' hm' c hc => ⟨channel.object, m :: queue, queued, m', hm', hc⟩
    refine ⟨by simp [returned], fun c hc => ?_, fun c hc => ?_⟩
    · rcases Scheduler.holds_setProcess hc with hc | ⟨a, ha⟩
      · exact hsame.held c hc
      · rcases Process.capability_grantAll (Process.recordReceive_capability .. ▸ ha) with hc | hc
        · exact hold c (hprocess receiver p held a c hc)
        · exact hsame.carried c (hqueue m List.mem_cons_self c hc)
    · rcases ChannelRegistry.carries_insert hc with hc | ⟨m', hm', hc⟩
      · exact hsame.carried c hc
      · exact hsame.carried c (hqueue m' (List.mem_cons_of_mem m hm') c hc)
  | @recorded id p held =>
    refine ⟨by simp [returned], fun c hc => ?_, hsame.carried⟩
    rcases Scheduler.holds_setProcess hc with hc | ⟨a, ha⟩
    · exact hsame.held c hc
    · exact hold c (hprocess id p held a c ha)
  | @granted id p cap held =>
    refine ⟨by simp [returned], fun c hc => ?_, hsame.carried⟩
    rcases Scheduler.holds_setProcess hc with hc | ⟨a, ha⟩
    · exact hsame.held c hc
    · rw [Process.capability_grant] at ha
      split at ha
      · exact hold c (hargs c (by simpa [Call.capabilities] using (Option.some.inj ha).symm))
      · exact hold c (hprocess id p held a c ha)

end Effect

namespace SystemRun
variable {tr : List SystemEntry} {s : System}

/-- The kernel calls of a run form a log of its kernel, and everything that ever existed in the
run was minted by it. -/
theorem log (h : SystemRun tr s) : KernelLog (kernelLog tr) s.kernel ∧
    (∀ c, Produced tr c → c ∈ minted (kernelLog tr)) ∧ KnownTo (minted (kernelLog tr)) s := by
  induction h with
  | start =>
    refine ⟨.new, by simp [Produced], fun c hc => ?_, fun c hc => ?_⟩
    · obtain ⟨id, p, a, hp, -⟩ := hc
      simp [System.new, Scheduler.new, Scheduler.process] at hp
    · obtain ⟨o, q, hq, -⟩ := hc
      simp [System.new, ChannelRegistry.new] at hq
  | @call tr s run c ok ih =>
    obtain ⟨hlog, hprod, hknown⟩ := ih
    have heffect := s.step_effect c
    have hargs : ∀ a ∈ c.capabilities, a ∈ minted (kernelLog tr) :=
      fun a ha => hprod a (ok a ha).produced
    obtain ⟨hret, hafter⟩ := heffect.known hknown hargs
    rw [kernelLog_append, kernelLog_singleton]
    refine ⟨heffect.kernelLog hlog hknown hargs, fun a ha => ?_, hafter⟩
    rcases produced_snoc.mp ha with ha | ha | ha | ha | ha
    · exact mem_minted_append.mpr (Or.inl (hprod a ha))
    · exact hret a ha
    · exact hafter.held a ha
    · exact hafter.carried a ha
    · exact mem_minted_append.mpr (Or.inr ha)

theorem seen_of_holds (h : SystemRun tr s) {c : Capability} (hc : s.sched.Holds c) :
    Seen tr c := by
  rcases h.last with ⟨-, rfl⟩ | ⟨e, he, rfl⟩
  · obtain ⟨id, p, a, hp, -⟩ := hc
    simp [System.new, Scheduler.new, Scheduler.process] at hp
  · exact ⟨e, he, Or.inr hc⟩

theorem produced_of_carries (h : SystemRun tr s) {c : Capability} (hc : s.channels.Carries c) :
    Produced tr c := by
  rcases h.last with ⟨-, rfl⟩ | ⟨e, he, rfl⟩
  · obtain ⟨o, q, hq, -⟩ := hc
    simp [System.new, ChannelRegistry.new] at hq
  · exact ⟨e, he, Or.inr (Or.inr (Or.inl hc))⟩

/-- When no capability for `o` that a client saw is live, every operation on `o` fails and
changes nothing. -/
theorem operation_fails (h : SystemRun tr s) {o : ObjectId}
    (hdead : ∀ c, Seen tr c → c.object = o → ¬s.kernel.Live c) {call : Call}
    (hok : Authorised tr call) (huse : call.OperatesOn s o) :
    (∃ e, (s.step call).1 = .error (.err e)) ∧ (s.step call).2 = s := by
  have heffect := s.step_effect call
  have hpresented : ∀ cap, cap ∈ call.capabilities → cap.object = o → ¬s.kernel.Live cap :=
    fun cap hcap => hdead cap (hok cap hcap)
  have hbatch : ∀ source p batch, s.sched.process source = some p → Resolved s.kernel p batch →
      ∀ g ∈ batch.map Prod.fst, (∀ a, g ≠ .transfer a) → ∀ c, p.capability g.handle = some c →
      c.object ≠ o := by
    intro source p batch hp hb g hg hnt c hc ho
    have hnl := hdead c (h.seen_of_holds ⟨source, p, g.handle, hp, hc⟩) ho
    obtain ⟨x, hx, rfl⟩ := List.mem_map.mp hg
    have he := hb.entries x hx
    cases hgx : x.1 with
    | transfer a => exact hnt a hgx
    | derive a r =>
      rw [hgx] at he hc
      obtain ⟨held, hp', hd⟩ := resolveGrant_derive_iff.mp he
      obtain rfl := Option.some.inj (hc.symm.trans hp')
      exact hnl (Kernel.derive_eq_ok_iff.mp hd).1
    | move a =>
      rw [hgx] at he hc
      obtain ⟨hp', hl, -⟩ := resolveGrant_move_iff.mp he
      obtain rfl := Option.some.inj (hc.symm.trans hp')
      exact hnl hl
  generalize (s.step call).1 = outcome at heffect
  generalize (s.step call).2 = s' at heffect
  cases heffect with
  | failed call e => exact ⟨⟨e, rfl⟩, rfl⟩
  | derived live _ _ | revoked live _ | reissued live _ | destroyedObject live _
  | destroyedRegion live _ | receivedNothing live _ | received _ live _ | read _ _ _ live
  | wrote _ _ _ live | inspected _ _ live | updated _ _ _ live | sized _ live =>
    rcases huse with ⟨cap, hcap, ho⟩ | ⟨source, grants, p, g, c, hb, -⟩
    · obtain rfl := Option.some.inj hcap
      exact absurd live (hpresented _ List.mem_cons_self ho)
    · cases hb
  | sent data held live queued resolved =>
    rcases huse with ⟨cap, hcap, ho⟩ | ⟨source, grants, q, g, c, hb, hq, hg, hnt, hc, ho⟩
    · obtain rfl := Option.some.inj hcap
      exact absurd live (hpresented _ List.mem_cons_self ho)
    · cases hb
      obtain rfl := Option.some.inj (held.symm.trans hq)
      exact absurd ho (hbatch _ _ _ held resolved g hg hnt c hc)
  | spawnedChild held resolved =>
    rcases huse with ⟨cap, hcap, ho⟩ | ⟨source, grants, q, g, c, hb, hq, hg, hnt, hc, ho⟩
    · cases hcap
    · cases hb
      obtain rfl := Option.some.inj (held.symm.trans hq)
      exact absurd ho (hbatch _ _ _ held resolved g hg hnt c hc)
  | newObject | newChannel | newRegion | overflowed | spawned | reclaimed | recorded | granted | turn =>
    rcases huse with ⟨cap, hcap, -⟩ | ⟨source, grants, p, g, c, hb, -⟩
    · cases hcap
    · cases hb

end SystemRun

/-- New objects advance the id counter, around `2 ^ 64`. -/
theorem System.final_newObjects (k : ℕ) (s : System) :
    ∃ kernel : Kernel, final System.step s (List.replicate k (.newObject .NONE)) = { s with kernel } ∧
      kernel.nextId = s.kernel.nextId + UInt64.ofNat k := by
  induction k generalizing s with
  | zero => exact ⟨s.kernel, rfl, by simp⟩
  | succ k ih =>
    obtain ⟨kernel, hfinal, hnext⟩ := ih (s.step (.newObject .NONE)).2
    refine ⟨kernel, hfinal, hnext.trans ?_⟩
    change s.kernel.nextId + 1 + _ = _
    rw [UInt64.ofNat_add, UInt64.add_assoc, UInt64.add_comm 1]
    rfl

end Muaddib
