import Muaddib.ChaosExactness

/-! # The kernel refines the model

No sequence of operations takes the kernel out of step with the model, as long as what it allocates
fits a vector and its events fit a counter. Beyond that the harness itself fails. -/
namespace Muaddib.Chaos
open LabelledRuns CausalGraphs

/-- Process 0 has recorded `n` events, and they are the only ones. -/
structure LocalEvents (n : ℕ) (w : World) : Prop where
  process : ∃ pm p, w.procs[0]? = some pm ∧ w.sched.process pm.pid = some p ∧
    p.clock.lamport.time = UInt64.ofNat n
  last : w.lastEvent[0]? = some (List.range n).getLast?
  preds : w.preds = (List.range n).map fun i => (List.range i).getLast?.toList
  stamps : w.stamps.map Stamp.lamport = (List.range n).map fun i => UInt64.ofNat (i + 1)

section Locals
variable {m n : ℕ} {w w' : World}

theorem LocalEvents.length (h : LocalEvents n w) : w.stamps.length = n := by
  have hlength := congrArg List.length h.stamps
  rwa [List.length_map, List.length_map, List.length_range] at hlength

theorem LocalEvents.step (h : LocalEvents n w) :
    ∃ w', w.execute (.local 0) = .ok w' ∧ LocalEvents (n + 1) w' := by
  obtain ⟨pm, p, hpm, hp, hlamport⟩ := h.process
  have hlength := h.length
  have hlast : 0 < w.lastEvent.length := (List.getElem?_eq_some_iff.mp h.last).1
  have htime : p.recordLocalEvent.1.lamport = UInt64.ofNat (n + 1) := by
    rw [UInt64.ofNat_add, ← hlamport]
    rfl
  let w₀ : World := w.setProcess pm.pid p.recordLocalEvent.2
  let w₁ : World := { w₀ with
    lastEvent := w.lastEvent.set 0 (some w.stamps.length)
    stamps := w.stamps ++ [p.recordLocalEvent.1]
    preds := w.preds ++ [(List.range n).getLast?.toList] }
  have hrecord : w₀.recordEvent 0 p.recordLocalEvent.1 [] = .ok (w.stamps.length, w₁) := by
    have hprev : index w₀.lastEvent 0 = .ok (List.range n).getLast? := index_eq h.last
    rw [World.recordEvent, hprev]
    rfl
  refine ⟨(w₁.outcome "local" true).logText ("local " ++ debug 0), ?_,
    ⟨pm, p.recordLocalEvent.2, hpm, ?_, htime⟩, ?_, ?_, ?_⟩
  · rw [World.execute, World.executeLocal, index_eq hpm, ok_bind, process_eq hpm hp, ok_bind]
    change (w₀.recordEvent 0 p.recordLocalEvent.1 [] >>= fun x =>
      .ok ((x.2.outcome "local" true).logText ("local " ++ debug 0))) = _
    rw [hrecord]
    rfl
  · change (w.sched.setProcess pm.pid p.recordLocalEvent.2).process pm.pid = _
    rw [process_setProcess, if_pos rfl]
  · change (w.lastEvent.set 0 (some w.stamps.length))[0]? = _
    rw [List.getElem?_set_self hlast, hlength, List.range_succ, List.getLast?_concat]
  · change w.preds ++ [(List.range n).getLast?.toList] = _
    rw [List.range_succ, List.map_append, ← h.preds]
    rfl
  · change (w.stamps ++ [p.recordLocalEvent.1]).map Stamp.lamport = _
    rw [List.map_append, h.stamps, List.range_succ, List.map_append, List.map_singleton, htime]
    rfl

theorem LocalEvents.audited (h : LocalEvents m w)
    (hok : Chaos.audited (List.replicate n (.local 0)) w = .ok w') : LocalEvents (m + n) w' := by
  induction n generalizing m w with
  | zero =>
    obtain rfl := Except.ok.inj hok
    exact h
  | succ n ih =>
    obtain ⟨next, hstep, hnext⟩ := h.step
    rw [List.replicate_succ, Chaos.audited, hstep, ok_bind] at hok
    obtain ⟨u, -, hrest⟩ := ok_of_bind (f := fun _ => Chaos.audited (List.replicate n (.local 0)) next) hok
    have hlater := ih hnext hrest
    rwa [Nat.add_assoc, Nat.add_comm 1 n] at hlater

theorem LocalEvents.inRange (h : LocalEvents m w) : AllInRange (List.replicate n (.local 0)) w := by
  induction n generalizing m w with
  | zero => exact trivial
  | succ n ih =>
    obtain ⟨next, hstep, hnext⟩ := h.step
    obtain ⟨pm, p, hpm, -⟩ := h.process
    rw [List.replicate_succ, allInRange_cons hstep]
    exact ⟨(List.getElem?_eq_some_iff.mp hpm).1, ih hnext⟩

/-- Each event is before the next one. -/
theorem LocalEvents.path (h : LocalEvents n w) {k : ℕ} (hk : k + 1 < n) :
    Path (graphOf w.preds) 0 (k + 1) := by
  have hedge : ∀ i, i + 1 < n → Edge (graphOf w.preds) i (i + 1) := by
    intro i hi
    refine ⟨⟨(), [i], fun _ => 0⟩, ?_, List.mem_singleton_self i⟩
    rw [graphOf, h.preds, List.map_map, List.getElem?_map, List.getElem?_range hi, Option.map_some,
      Function.comp_apply, List.range_succ, List.getLast?_concat]
    rfl
  induction k with
  | zero => exact .single (hedge 0 hk)
  | succ k ih => exact .tail (ih (by omega)) (hedge (k + 1) hk)

/-- The calls of local operations record and do nothing else. -/
theorem locals_budgeted (w : World) :
    Budgeted channelCount n 0 ((history (List.replicate n (.local 0)) w).map Entry.call) := by
  induction n generalizing w with
  | zero => exact .nil
  | succ n ih =>
    have hfirst : Budgeted channelCount 1 0 (w.calls (.local 0)) := by
      rw [World.calls, World.callsOf]
      cases index w.procs 0 with
      | error e => exact .nil
      | ok pm => exact ⟨le_rfl, le_rfl, fun c hc => List.mem_singleton.mp hc ▸ trivial⟩
    rw [List.replicate_succ, history, List.map_append, World.entries, map_call_trace, Nat.add_comm]
    refine hfirst.append (?_ : Budgeted channelCount n 0 _)
    cases w.execute (.local 0) with
    | ok w' => exact ih w'
    | error e => exact .nil

end Locals

theorem boot_localEvents : LocalEvents 0 World.boot := by
  have hlamport : ((World.boot.procs[0]?.bind fun pm => World.boot.sched.process pm.pid).map
      fun p => p.clock.lamport.time) = some 0 := by decide +kernel
  have hlast : World.boot.lastEvent[0]? = some none := by decide +kernel
  have hpreds : World.boot.preds = [] := by decide +kernel
  have hstamps : World.boot.stamps.map Stamp.lamport = [] := by decide +kernel
  rw [Option.map_eq_some_iff] at hlamport
  obtain ⟨p, hbind, htime⟩ := hlamport
  obtain ⟨pm, hpm, hp⟩ := Option.bind_eq_some_iff.mp hbind
  exact ⟨⟨pm, p, hpm, hp, htime⟩, hlast, hpreds, hstamps⟩

theorem locals_sparing (n : ℕ) : Sparing (runTrace (List.replicate n (.local 0))) := by
  have hbudget : Budgeted channelCount (0 + n) (6 + 0)
      ((runTrace (List.replicate n (.local 0))).map Entry.call) := by
    rw [runTrace, List.map_append, bootTrace, map_call_trace]
    exact (boot_budgeted (n := channelCount)).append (locals_budgeted World.boot)
  exact sparing_of_budgeted boot_mirrors boot_localEvents.inRange (by decide) hbudget (by decide)

/-- When the Lamport clock comes around, the check of causality fails. -/
theorem locals_fail {n : ℕ} (hn : 1 < n) (hwrap : UInt64.ofNat n = 0) (w : World) :
    auditedRun (List.replicate n (.local 0)) ≠ .ok w := by
  intro hok
  rw [auditedRun, World.new_eq, ok_bind] at hok
  obtain ⟨w', haudited, hok⟩ := ok_of_bind hok
  obtain ⟨u, hcheck, -⟩ := ok_of_bind (f := fun _ => .ok w') hok
  have hlocal := boot_localEvents.audited haudited
  rw [Nat.zero_add] at hlocal
  have hlength : w'.preds.length = w'.stamps.length := by
    rw [hlocal.preds, hlocal.length, List.length_map, List.length_range]
  obtain ⟨k, rfl⟩ := Nat.exists_eq_add_of_lt hn
  have hstamp : ∀ i, i < 1 + k + 1 → ∃ a, w'.stamps[i]? = some a ∧ a.lamport = UInt64.ofNat (i + 1) := by
    intro i hi
    have hget := congrArg (fun times => times[i]?) hlocal.stamps
    rw [List.getElem?_map, List.getElem?_map, List.getElem?_range hi, Option.map_some,
      Option.map_eq_some_iff] at hget
    exact hget
  obtain ⟨a, ha, hfirst⟩ := hstamp 0 (by omega)
  obtain ⟨b, hb, hlast⟩ := hstamp (1 + k) (by omega)
  have hpath : Path (graphOf w'.preds) 0 (1 + k) := by
    rw [Nat.add_comm 1 k]
    exact hlocal.path (by omega)
  have hlt := (stampsAgree_of_checked hlength hcheck).lamport 0 (1 + k) a b (by omega) ha hb hpath
  rw [hlast, hwrap] at hlt
  exact absurd hlt (by simp)

def stopOf {α : Type} : Check α → Option (Stop String)
  | .ok _ => none
  | .error e => some e

theorem eq_error_of_stopOf {α : Type} {x : Check α} {e : Stop String} (h : stopOf x = some e) :
    x = .error e := by
  cases x with
  | ok a => cases h
  | error e' => exact congrArg Except.error (Option.some.inj h)

theorem single_sparing {op : Op} (hop : op.Slim 3) : Sparing (runTrace [op]) := by
  have hhistory : history [op] World.boot = World.boot.entries op := by
    rw [history]
    cases World.boot.execute op <;> exact List.append_nil _
  have hslim : ∀ op' ∈ [op], op'.Slim 3 := fun op' hop' => List.mem_singleton.mp hop' ▸ hop
  have hbudget := runTrace_budgeted hslim
  rw [runTrace, hhistory, List.length_singleton] at hbudget
  rw [runTrace, hhistory]
  intro id
  exact ((run_calls boot_mirrors.run (World.boot.calls op)).grantCount_le (by decide) hbudget id).trans_lt
    (by decide)

/-- The kernel refines the model: whatever the operations, each passes its own checks, every audit
passes and so does the check of causality, and at the end the model mirrors the kernel. A run from a
seed without a fault is such a sequence. -/
theorem kernel_refines_model :
    (∀ ops, AllInRange ops World.boot → Sparing (runTrace ops) →
      (causality (runTrace ops)).nodes.length < 2 ^ 64 →
      ∃ w, auditedRun ops = .ok w ∧ Mirrors (runTrace ops) w) ∧
    ∀ config : ChaosConfig, config.fault = none → config.steps < 2 ^ 64 →
      Sparing (runTrace (seededOps config.seed config.steps)) →
      ∃ summary, runChaos config = .ok summary := by
  refine ⟨fun ops hrange hsparing hevents => auditedRun_ok ops hrange hsparing hevents, ?_⟩
  intro config hfault hsteps hsparing
  obtain ⟨w, hloop, -, hmirrors⟩ := runLoop_seededOps config hsparing
  rw [← hfault] at hloop
  exact ⟨_, runChaos_of_loop hloop hmirrors (seededOps_causality hsteps hsparing hmirrors)⟩

/-- A region that is moved and tried again, and a million steps from a seed. -/
theorem kernel_refines_model_movedRegion :
    (∃ w, auditedRun movedRegion = .ok w ∧ Mirrors (runTrace movedRegion) w) ∧
      ∃ summary, runChaos ⟨0xC0FFEE, 1000000, none⟩ = .ok summary := by
  obtain ⟨w, -, hmirrors⟩ := audited_mirrors boot_mirrors movedRegion_inRange movedRegion_sparing
  have hevents : (causality (runTrace movedRegion)).nodes.length < 2 ^ 64 :=
    (events_le hmirrors movedRegion_slim).trans_lt (by decide)
  exact ⟨kernel_refines_model.1 movedRegion movedRegion_inRange movedRegion_sparing hevents,
    kernel_refines_model.2 ⟨0xC0FFEE, 1000000, none⟩ rfl (by decide)
      (seededOps_sparing 0xC0FFEE (by decide))⟩

/-- A region and a write that no vector holds end the run, and so do as many events as a counter has
values. -/
theorem auditedRun_fails_beyond_bounds :
    (Sparing (runTrace [.newRegion 0 (2 ^ 63)]) ∧
      auditedRun [.newRegion 0 (2 ^ 63)] = .error (.panic "capacity overflow")) ∧
    (Sparing (runTrace [.write 0 (.table 0) true 0 (2 ^ 63) 0]) ∧
      auditedRun [.write 0 (.table 0) true 0 (2 ^ 63) 0] = .error (.panic "capacity overflow")) ∧
    AllInRange (List.replicate (2 ^ 64) (.local 0)) World.boot ∧
      Sparing (runTrace (List.replicate (2 ^ 64) (.local 0))) ∧
      ∀ w, auditedRun (List.replicate (2 ^ 64) (.local 0)) ≠ .ok w := by
  refine ⟨⟨single_sparing trivial, eq_error_of_stopOf ?_⟩, ⟨single_sparing trivial, eq_error_of_stopOf ?_⟩,
    boot_localEvents.inRange, locals_sparing _, fun w => locals_fail ?_ ?_ w⟩
  all_goals decide +kernel

end Muaddib.Chaos
