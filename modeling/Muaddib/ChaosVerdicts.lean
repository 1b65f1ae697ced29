import Muaddib.ChaosCausality
import Muaddib.ChaosStreams

/-! # The verdict of a run

No sequence of operations takes the kernel out of step with the model, so a run without a fault
reports none. -/
namespace Muaddib.Chaos
open LabelledRuns

/-- A region is written, moved to a child that uses it, and tried again through the old copy. -/
def movedRegion : List Op :=
  [.write 0 (.table 0) true 2 4 0xAB, .spawn 0 [(0, .move), (1, .derive .READ)],
    .read 1 (.table 0) true 0 8, .write 0 (.stash 0) true 0 4 0xCD, .send 1 2 [(0, .move)],
    .revoke 0 (.stash 1), .receive 0 2, .destroy 0 (.stash 0), .local 1]

theorem movedRegion_inRange : AllInRange movedRegion World.boot := by decide +kernel

theorem movedRegion_slim : ∀ op ∈ movedRegion, op.Slim 3 := by decide

theorem movedRegion_sparing : Sparing (runTrace movedRegion) :=
  sparing_of_budgeted boot_mirrors movedRegion_inRange (by decide) (runTrace_budgeted movedRegion_slim)
    (by decide)

theorem movedRegion_passes : ∃ w, audited movedRegion World.boot = .ok w := by
  obtain ⟨w, haudited, -⟩ := audited_mirrors boot_mirrors movedRegion_inRange movedRegion_sparing
  exact ⟨w, haudited⟩

/-- The kernel refines the model: every operation passes its own checks, every audit passes, and so
does the check of causality. At the end the model mirrors the system the calls lead to. -/
theorem auditedRun_ok (ops : List Op) (hrange : AllInRange ops World.boot)
    (hsparing : Sparing (runTrace ops)) (hevents : (causality (runTrace ops)).nodes.length < 2 ^ 64) :
    ∃ w, auditedRun ops = .ok w ∧ Mirrors (runTrace ops) w := by
  obtain ⟨w, haudited, hmirrors⟩ := audited_mirrors boot_mirrors hrange hsparing
  refine ⟨w, ?_, hmirrors⟩
  rw [runTrace, ← hmirrors.chronicled.length] at hevents
  rw [auditedRun, World.new_eq, ok_bind, haudited, ok_bind, hmirrors.checkCausality_ok hevents]
  rfl

/-- The summary of a run: what the model counted, and the events of the kernel's calls. -/
def summaryOf (config : ChaosConfig) (w : World) : ChaosSummary :=
  { w.summary with
    seed := config.seed
    steps := config.steps
    events := (causality (runTrace (seededOps config.seed config.steps))).nodes.length
    logHash := w.log }

theorem runChaos_of_loop {config : ChaosConfig} {w : World}
    (hloop : runLoop config config.steps 0 (.new config.seed) World.boot config.fault = .ok w)
    (hmirrors : Mirrors (runTrace (seededOps config.seed config.steps)) w)
    (hcheck : w.checkCausality = .ok ()) : runChaos config = .ok (summaryOf config w) := by
  rw [summaryOf, ← hmirrors.chronicled.length]
  simp only [runChaos, runSteps, World.new_eq, ChaosConfig.guarded, Except.mapError, bind, Except.bind,
    hloop, hcheck]
  rfl

theorem seededOps_causality {seed : UInt64} {steps : ℕ} {w : World} (hsteps : steps < 2 ^ 64)
    (hsparing : Sparing (runTrace (seededOps seed steps)))
    (hmirrors : Mirrors (runTrace (seededOps seed steps)) w) : w.checkCausality = .ok () := by
  have hevents := seededOps_events hsteps hsparing hmirrors
  rw [← hmirrors.chronicled.length] at hevents
  exact hmirrors.checkCausality_ok hevents

/-- A run without a fault passes for every seed: it is the audited run of the generated operations. -/
theorem runChaos_ok (config : ChaosConfig) (hfault : config.fault = none)
    (hsteps : config.steps < 2 ^ 64)
    (hsparing : Sparing (runTrace (seededOps config.seed config.steps))) :
    ∃ w, auditedRun (seededOps config.seed config.steps) = .ok w ∧
      Mirrors (runTrace (seededOps config.seed config.steps)) w ∧
      runChaos config = .ok (summaryOf config w) := by
  obtain ⟨w, hloop, haudited, hmirrors⟩ := runLoop_seededOps config hsparing
  have hcheck := seededOps_causality hsteps hsparing hmirrors
  refine ⟨w, ?_, hmirrors, ?_⟩
  · rw [auditedRun, World.new_eq, ok_bind, haudited, ok_bind, hcheck]
    rfl
  · rw [← hfault] at hloop
    exact runChaos_of_loop hloop hmirrors hcheck

/-- A million steps. -/
theorem runChaos_ok_million : ∃ w, auditedRun (seededOps 0xC0FFEE 1000000) = .ok w ∧
    Mirrors (runTrace (seededOps 0xC0FFEE 1000000)) w ∧
    runChaos ⟨0xC0FFEE, 1000000, none⟩ = .ok (summaryOf ⟨0xC0FFEE, 1000000, none⟩ w) :=
  runChaos_ok ⟨0xC0FFEE, 1000000, none⟩ rfl (by decide) (seededOps_sparing 0xC0FFEE (by decide))

end Muaddib.Chaos
