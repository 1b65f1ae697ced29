import Muaddib.KernelLogs
import Muaddib.LabelledRuns

/-! # Whole histories of a kernel

A client may call the kernel in any order, with any capability it was ever given. -/
namespace Muaddib
open LabelledRuns

inductive KernelCall where
  | newObject (rights : Rights)
  | derive (cap : Capability) (requested : Rights)
  | revoke (cap : Capability)
  | reissue (cap : Capability)
  | destroyObject (cap : Capability)
  deriving DecidableEq, Repr

abbrev KernelOutcome := Except (Stop CapError) (Option Capability)

namespace Kernel

def call (k : Kernel) : KernelCall → KernelOutcome × Kernel
  | .newObject rights => ((.ok (some (k.newObject rights).1)), (k.newObject rights).2)
  | .derive cap requested => (((k.derive cap requested).mapError .err).map some, k)
  | .revoke cap => ((k.revoke cap).1.map fun _ => none, (k.revoke cap).2)
  | .reissue cap => ((k.reissue cap).1.map some, (k.reissue cap).2)
  | .destroyObject cap =>
    (((k.destroyObject cap).1.mapError .err).map fun _ => none, (k.destroyObject cap).2)

end Kernel

def KernelCall.argument : KernelCall → Option Capability
  | .newObject _ => none
  | .derive cap _ | .revoke cap | .reissue cap | .destroyObject cap => some cap

abbrev KernelEntry := Entry Kernel KernelCall KernelOutcome

namespace KernelEntry

def returned (e : KernelEntry) : Option Capability :=
  match e.outcome with
  | .ok c => c
  | .error _ => none

/-- The call was a successful `revoke`, `reissue` or `destroy_object` of `o`. -/
def kills (o : ObjectId) (e : KernelEntry) : Bool :=
  match e.call, e.outcome with
  | .revoke cap, .ok _ | .reissue cap, .ok _ | .destroyObject cap, .ok _ => cap.object = o
  | _, _ => false

def isAllocation (e : KernelEntry) : Bool :=
  match e.call with
  | .newObject _ => true
  | _ => false

def isRevocation (e : KernelEntry) : Bool :=
  match e.call, e.outcome with
  | .revoke _, .ok _ | .reissue _, .ok _ => true
  | _, _ => false

def failed (e : KernelEntry) : Bool :=
  match e.outcome with
  | .ok _ => false
  | .error _ => true

def event (e : KernelEntry) : Option KernelEvent :=
  match e.call, e.outcome with
  | .newObject _, .ok (some c) => some (.created c)
  | .derive cap _, .ok (some c) => some (.derived cap c)
  | .revoke cap, .ok _ => some (.revoked cap)
  | .reissue cap, .ok (some c) => some (.reissued cap c)
  | .destroyObject cap, .ok _ => some (.destroyed cap)
  | _, _ => none

end KernelEntry

/-- Some call of the history returned `c`. -/
def Returned (tr : List KernelEntry) (c : Capability) : Prop := ∃ e ∈ tr, e.returned = some c

instance (tr : List KernelEntry) (c : Capability) : Decidable (Returned tr c) :=
  inferInstanceAs (Decidable (∃ _ ∈ _, _))

/-- A capability cannot be made up: it is an argument only after it was returned. -/
def Unforged (tr : List KernelEntry) (call : KernelCall) : Prop :=
  ∀ c, call.argument = some c → Returned tr c

instance (tr : List KernelEntry) (call : KernelCall) : Decidable (Unforged tr call) :=
  match h : call.argument with
  | none => isTrue fun c hc => by rw [h] at hc; cases hc
  | some c => decidable_of_iff (Returned tr c)
      ⟨fun hr c' hc => by rw [h] at hc; exact Option.some.inj hc ▸ hr, fun hr => hr c h⟩

abbrev KernelHistory : List KernelEntry → Kernel → Prop := Run Kernel.call Unforged .new

/-- What a kernel call does: either it fails and changes nothing, or it performs its event. -/
theorem Kernel.call_cases (k : Kernel) (c : KernelCall) :
    ((∃ e, (k.call c).1 = .error (.err e)) ∧ (k.call c).2 = k ∧ KernelEntry.event (entry Kernel.call k c) = none) ∨
      ∃ ev, KernelEntry.event (entry Kernel.call k c) = some ev ∧ ev.Performed k (k.call c).2 ∧
        (∃ o, (k.call c).1 = .ok o ∧ ev.minted = o) ∧ ev.source = c.argument := by
  cases c with
  | newObject r =>
    exact Or.inr ⟨.created (k.newObject r).1, rfl, .created r, ⟨_, rfl, rfl⟩, rfl⟩
  | derive cap r =>
    cases hd : k.derive cap r with
    | error e => exact Or.inl ⟨⟨e, by simp [call, hd, Except.mapError, Except.map]⟩, rfl,
        by simp [entry, call, hd, Except.mapError, Except.map, KernelEntry.event]⟩
    | ok c =>
      obtain ⟨hl, hg, hr, rfl⟩ := derive_eq_ok_iff.mp hd
      refine Or.inr ⟨.derived cap ⟨cap.object, r, cap.epoch⟩, ?_, .derived hl hg hr, ⟨_, ?_, rfl⟩, rfl⟩
      · simp [entry, call, hd, Except.mapError, Except.map, KernelEntry.event]
      · simp [call, hd, Except.mapError, Except.map, KernelEvent.minted]
  | revoke cap =>
    rcases k.check_cases cap .DESTROY with ⟨-, hl, hd⟩ | ⟨e, he⟩
    · have hr := revoke_of_live hl hd
      refine Or.inr ⟨.revoked cap, ?_, ?_, ⟨none, ?_, rfl⟩, rfl⟩
      · simp [entry, call, hr, Except.map, KernelEntry.event]
      · simpa [call, hr] using KernelEvent.Performed.revoked hl hd
      · simp [call, hr, Except.map]
    · have hr := revoke_of_error he
      exact Or.inl ⟨⟨e, by simp [call, hr, Except.map]⟩, by simp [call, hr],
        by simp [entry, call, hr, Except.map, KernelEntry.event]⟩
  | reissue cap =>
    rcases k.check_cases cap .DESTROY with ⟨-, hl, hd⟩ | ⟨e, he⟩
    · have hr := reissue_of_live hl hd
      refine Or.inr ⟨.reissued cap ⟨cap.object, cap.rights, cap.epoch + 1⟩, ?_, ?_, ⟨_, ?_, rfl⟩, rfl⟩
      · simp [entry, call, hr, Except.map, KernelEntry.event]
      · simpa [call, hr] using KernelEvent.Performed.reissued hl hd
      · simp [call, hr, Except.map, KernelEvent.minted]
    · have hr := reissue_of_error he
      exact Or.inl ⟨⟨e, by simp [call, hr, Except.map]⟩, by simp [call, hr],
        by simp [entry, call, hr, Except.map, KernelEntry.event]⟩
  | destroyObject cap =>
    rcases k.check_cases cap .DESTROY with ⟨-, hl, hd⟩ | ⟨e, he⟩
    · have hr := destroyObject_of_live hl hd
      refine Or.inr ⟨.destroyed cap, ?_, ?_, ⟨none, ?_, rfl⟩, rfl⟩
      · simp [entry, call, hr, Except.map, Except.mapError, KernelEntry.event]
      · simpa [call, hr] using KernelEvent.Performed.destroyed hl hd
      · simp [call, hr, Except.map, Except.mapError]
    · have hr := destroyObject_of_error he
      exact Or.inl ⟨⟨e, by simp [call, hr, Except.map, Except.mapError]⟩, by simp [call, hr],
        by simp [entry, call, hr, Except.map, Except.mapError, KernelEntry.event]⟩

namespace KernelHistory
variable {tr earlier later : List KernelEntry} {k k' : Kernel}

def events (tr : List KernelEntry) : List KernelEvent := tr.filterMap KernelEntry.event

theorem events_snoc (tr : List KernelEntry) (e : KernelEntry) :
    events (tr ++ [e]) = events tr ++ e.event.toList := by
  cases he : e.event <;> simp [events, he]

theorem events_cons (e : KernelEntry) (tr : List KernelEntry) :
    events (e :: tr) = e.event.toList ++ events tr := by
  cases he : e.event <;> simp [events, he]

theorem events_append (tr later : List KernelEntry) :
    events (tr ++ later) = events tr ++ events later := List.filterMap_append

theorem returned_entry {c : KernelCall} {cap : Capability}
    (h : KernelEntry.returned (entry Kernel.call k c) = some cap) :
    ∃ ev, KernelEntry.event (entry Kernel.call k c) = some ev ∧ ev.minted = some cap := by
  rcases k.call_cases c with ⟨⟨e, he⟩, -⟩ | ⟨ev, hev, -, ⟨o, ho, hm⟩, -⟩
  · simp [KernelEntry.returned, entry, he] at h
  · refine ⟨ev, hev, hm.trans ?_⟩
    simpa [KernelEntry.returned, entry, ho] using h

theorem kills_entry (k : Kernel) (c : KernelCall) (o : ObjectId) :
    KernelEntry.kills o (entry Kernel.call k c) =
      (KernelEntry.event (entry Kernel.call k c)).any (KernelEvent.kills o) := by
  cases c with
  | newObject r => rfl
  | derive cap r =>
    cases hd : k.derive cap r <;> simp [entry, Kernel.call, hd, KernelEntry.kills, KernelEntry.event,
      KernelEvent.kills, KernelEvent.bumps, KernelEvent.destroys, Except.map, Except.mapError]
  | revoke cap =>
    cases hr : (k.revoke cap).1 <;> simp [entry, Kernel.call, hr, KernelEntry.kills,
      KernelEntry.event, KernelEvent.kills, KernelEvent.bumps, KernelEvent.destroys, Except.map]
  | reissue cap =>
    cases hr : (k.reissue cap).1 <;> simp [entry, Kernel.call, hr, KernelEntry.kills,
      KernelEntry.event, KernelEvent.kills, KernelEvent.bumps, KernelEvent.destroys, Except.map]
  | destroyObject cap =>
    cases hr : (k.destroyObject cap).1 <;> simp [entry, Kernel.call, hr, KernelEntry.kills,
      KernelEntry.event, KernelEvent.kills, KernelEvent.bumps, KernelEvent.destroys, Except.map,
      Except.mapError]

theorem log (h : KernelHistory tr k) :
    KernelLog (events tr) k ∧ ∀ c, Returned tr c → c ∈ minted (events tr) := by
  induction h with
  | start => exact ⟨.new, by simp [Returned]⟩
  | @call tr k run c ok ih =>
    obtain ⟨hlog, hret⟩ := ih
    have hnew : ∀ cap, Returned (tr ++ [entry Kernel.call k c]) cap →
        cap ∈ minted (events (tr ++ [entry Kernel.call k c])) := by
      intro cap ⟨e, he, hcap⟩
      rw [events_append, minted, List.filterMap_append, List.mem_append]
      rcases List.mem_append.mp he with he | he
      · exact Or.inl (hret cap ⟨e, he, hcap⟩)
      · obtain rfl := List.mem_singleton.mp he
        obtain ⟨ev, hev, hm⟩ := returned_entry hcap
        exact Or.inr (by simp [events, hev, hm])
    refine ⟨?_, hnew⟩
    rw [events_snoc]
    rcases k.call_cases c with ⟨-, hk, hev⟩ | ⟨ev, hev, hp, -, hs⟩
    · rw [hev, hk]
      simpa using hlog
    · rw [hev]
      refine hlog.snoc (fun cap hcap => hret cap (ok cap ?_)) hp
      rw [← hs, hcap]

theorem fits (ha : tr.countP KernelEntry.isAllocation < 2 ^ 64)
    (hr : tr.countP KernelEntry.isRevocation < 2 ^ 64) : Fits (events tr) := by
  have halloc : allocations (events tr) ≤ tr.countP KernelEntry.isAllocation := by
    rw [allocations, events, List.countP_filterMap]
    apply List.countP_mono_left
    intro e _ he
    obtain ⟨_, c, o, _⟩ := e
    cases c <;> rcases o with _ | _ | _ <;>
      simp_all [KernelEntry.event, KernelEntry.isAllocation, KernelEvent.isCreation]
  have hrev : revocations (events tr) ≤ tr.countP KernelEntry.isRevocation := by
    rw [revocations, events, List.countP_filterMap]
    apply List.countP_mono_left
    intro e _ he
    obtain ⟨_, c, o, _⟩ := e
    cases c <;> rcases o with _ | _ | _ <;>
      simp_all [KernelEntry.event, KernelEntry.isRevocation, KernelEvent.isRevocation]
  exact ⟨halloc.trans_lt ha, hrev.trans_lt hr⟩

/-- A capability is live exactly while no later call of the history killed its object. -/
theorem live_iff (h : KernelHistory tr k) (hf : Fits (events tr)) {e : KernelEntry}
    {c : Capability} (htr : tr = earlier ++ e :: later) (hc : e.returned = some c) :
    k.Live c ↔ ∀ e' ∈ later, e'.kills c.object = false := by
  subst htr
  obtain ⟨-, -, he, -, hrest⟩ := h.split_cons
  rw [he] at hc
  obtain ⟨ev, hev, hm⟩ := returned_entry hc
  have hlog : events (earlier ++ e :: later) = events earlier ++ ev :: events later := by
    rw [events_append, events_cons, he, hev]
    rfl
  rw [h.log.1.live_iff hf hlog hm, events]
  have hkills : ∀ e' ∈ later, e'.kills c.object = e'.event.any (KernelEvent.kills c.object) := by
    intro e' he'
    obtain ⟨s, t, rfl⟩ := List.append_of_mem he'
    obtain ⟨-, -, he₂, -⟩ := hrest.split_cons
    rw [he₂]
    exact kills_entry ..
  constructor
  · intro hlive e' he'
    rw [hkills e' he']
    cases hev' : e'.event with
    | none => rfl
    | some ev' => exact hlive ev' (List.mem_filterMap.mpr ⟨e', he', hev'⟩)
  · intro hlater ev' hev'
    obtain ⟨e', he', hevent⟩ := List.mem_filterMap.mp hev'
    have hk := hkills e' he'
    rw [hlater e' he', hevent] at hk
    exact hk.symm

theorem object_lt (h : KernelHistory tr k) (hf : Fits (events tr)) {c : Capability}
    (hc : Returned tr c) : c.object.val.toNat < allocations (events tr) := by
  obtain ⟨ev, hev, hm⟩ := List.mem_filterMap.mp (h.log.2 c hc)
  obtain ⟨pre, post, hlog⟩ := List.append_of_mem hev
  exact ((h.log.1.ledger hf).minted pre ev post c hlog hm).1

theorem failed_unchanged (k : Kernel) (c : KernelCall)
    (hfail : KernelEntry.failed (entry Kernel.call k c) = true) : (k.call c).2 = k := by
  rcases k.call_cases c with ⟨-, hk, -⟩ | ⟨ev, -, -, ⟨o, ho, -⟩, -⟩
  · exact hk
  · simp [KernelEntry.failed, entry, ho] at hfail

/-- A call made with a capability for another object leaves the checks of `c` as they were. -/
theorem check_frame (h : KernelHistory tr k) (hf : Fits (events tr)) {c : Capability}
    (hc : Returned tr c) {call : KernelCall}
    (hother : ∀ a, call.argument = some a → a.object ≠ c.object) (r : Rights) :
    (k.call call).2.check c r = k.check c r := by
  have hnext : (⟨k.nextId⟩ : ObjectId) ≠ c.object := by
    intro heq
    have hlt := h.object_lt hf hc
    have := ((h.log.1.ledger hf).eq_next_iff hf.allocations c.object).mp heq
    omega
  rcases k.call_cases call with ⟨-, hk, -⟩ | ⟨ev, -, hp, -, hs⟩
  · rw [hk]
  · exact Kernel.check_congr (hp.frame (fun a ha => hother a (hs ▸ ha)) hnext) r

theorem newObject_fresh (h : KernelHistory tr k) (hf : Fits (events tr)) {c : Capability}
    (hc : Returned tr c) (r : Rights) : (k.newObject r).1.object ≠ c.object := by
  intro heq
  have hlt := h.object_lt hf hc
  have := ((h.log.1.ledger hf).eq_next_iff hf.allocations c.object).mp heq
  omega

/-- Exact liveness over whole histories: a capability stays usable, for exactly its rights, until
the first successful revocation, reissue or destruction of its object, and never again after. -/
theorem exact_liveness (h : KernelHistory tr k)
    (ha : tr.countP KernelEntry.isAllocation < 2 ^ 64)
    (hr : tr.countP KernelEntry.isRevocation < 2 ^ 64) :
    (∀ (earlier : List KernelEntry) (e : KernelEntry) (later : List KernelEntry) (c : Capability),
      tr = earlier ++ e :: later → e.returned = some c →
      (k.check c .NONE = .ok () ↔ ∀ e' ∈ later, e'.kills c.object = false) ∧
      ∀ r, k.check c r = .ok () ↔
        (∀ e' ∈ later, e'.kills c.object = false) ∧ c.rights.contains r = true) ∧
    (∀ (earlier : List KernelEntry) (e : KernelEntry) (later : List KernelEntry) (c : Capability),
      tr = earlier ++ e :: later → Returned earlier c →
      e.before.check c .NONE ≠ .ok () → k.check c .NONE ≠ .ok ()) ∧
    (∀ e ∈ tr, e.failed = true → e.after = e.before) ∧
    (∀ (earlier : List KernelEntry) (e : KernelEntry) (later : List KernelEntry) (c : Capability),
      tr = earlier ++ e :: later → Returned earlier c →
      (∀ a, e.call.argument = some a → a.object ≠ c.object) →
      ∀ r, e.after.check c r = e.before.check c r) ∧
    (∀ (earlier : List KernelEntry) (e : KernelEntry) (later : List KernelEntry)
      (c c' : Capability), tr = earlier ++ e :: later → Returned earlier c →
      e.isAllocation = true → e.returned = some c' → c'.object ≠ c.object) := by
  have hf := fits ha hr
  have hfits : ∀ earlier e later, tr = earlier ++ e :: later → Fits (events earlier) := by
    intro earlier e later htr
    rw [htr, events_append] at hf
    exact hf.of_append
  refine ⟨?_, ?_, ?_, ?_, ?_⟩
  · intro earlier e later c htr hc
    have hlive := h.live_iff hf htr hc
    constructor
    · rw [Kernel.check_NONE, hlive]
    · intro r
      rw [Kernel.check_eq_ok_iff, hlive]
  · intro earlier e later c htr ⟨e₀, he₀, hc⟩ hdead hlive
    obtain ⟨s, t, rfl⟩ := List.append_of_mem he₀
    subst htr
    have hrun : KernelHistory _ e.before := h.split_cons.1
    have hbefore := hrun.live_iff (hfits _ e later rfl) rfl hc
    have hafter := h.live_iff hf (List.append_assoc s (e₀ :: t) (e :: later)) hc
    apply hdead
    rw [Kernel.check_NONE] at hlive ⊢
    rw [hbefore]
    intro e' he'
    exact hafter.mp hlive e' (List.mem_append_left _ he')
  · intro e he hfail
    obtain ⟨s, t, rfl⟩ := List.append_of_mem he
    obtain ⟨-, -, he, -⟩ := h.split_cons
    rw [he] at hfail ⊢
    exact failed_unchanged _ _ hfail
  · intro earlier e later c htr hc hother r
    subst htr
    obtain ⟨hrun, -, he, -⟩ := h.split_cons
    have hframe := KernelHistory.check_frame hrun (hfits earlier e later rfl) hc hother r
    rw [he]
    exact hframe
  · intro earlier e later c c' htr hc halloc hret
    subst htr
    obtain ⟨hrun, -, he, -⟩ := h.split_cons
    have hfresh := KernelHistory.newObject_fresh hrun (hfits earlier e later rfl) hc
    rw [he] at halloc hret
    cases hcall : e.call with
    | newObject r =>
      rw [hcall] at hret
      obtain rfl := Option.some.inj hret
      exact hfresh r
    | _ => simp [hcall, KernelEntry.isAllocation, entry] at halloc

/-- A reissue kills the view and the original, and the fresh capability survives the stale
holder's attempt to revoke it. -/
theorem exact_liveness_reissue :
    let held : Capability := ⟨⟨0⟩, .ALL, 0⟩
    let view : Capability := ⟨⟨0⟩, .READ, 0⟩
    let fresh : Capability := ⟨⟨0⟩, .ALL, 1⟩
    let calls : List KernelCall := [.newObject .ALL, .derive held .READ, .reissue held, .revoke held]
    let k := final Kernel.call .new calls
    k.check view .NONE ≠ .ok () ∧ k.check held .NONE ≠ .ok () ∧ k.check fresh .WRITE = .ok () := by
  intro held view fresh calls k
  have hrun : KernelHistory (trace Kernel.call .new calls) k := Run.of_calls (by decide +kernel)
  obtain ⟨hexact, -⟩ := hrun.exact_liveness (by decide +kernel) (by decide +kernel)
  refine ⟨?_, ?_, ?_⟩
  · have hview := (hexact ((trace Kernel.call .new calls).take 1) _ _ view rfl (by decide +kernel)).1
    exact hview.not.mpr (by decide +kernel)
  · have hheld := (hexact [] _ _ held rfl rfl).1
    exact hheld.not.mpr (by decide +kernel)
  · rw [(hexact ((trace Kernel.call .new calls).take 2) _ _ fresh rfl (by decide +kernel)).2]
    decide +kernel

end KernelHistory
end Muaddib
