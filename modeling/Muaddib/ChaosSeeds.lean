import Muaddib.ChaosBudgets

/-! # Runs from a seed

The operations that a seed generates are in range, so a run without a fault finds nothing. -/
namespace Muaddib.Chaos
open LabelledRuns

section Generation
variable (rng : SplitMix64)

theorem arbSpan_len_lt : (arbSpan rng).1.2 < 10 := by
  have hlt : ∀ (r : SplitMix64) (small : Bool), (r.below (if small then 5 else 10)).1 < 10 := by
    intro r small
    have hpos : 0 < if small then 5 else 10 := by split <;> omega
    have hle : (if small then 5 else 10) ≤ 10 := by split <;> omega
    exact (r.below_lt hpos).trans_le hle
  rcases hsmall : rng.percent 75 with ⟨small, rng₁⟩
  rcases hoffset : rng₁.below (if small then 4 else maxRegionSize + 8) with ⟨offset, rng₂⟩
  rcases hlen : rng₂.below (if small then 5 else 10) with ⟨len, rng₃⟩
  have hbound := hlt rng₂ small
  rw [hlen] at hbound
  simp only [arbSpan, hsmall, hoffset, hlen]
  exact hbound

theorem arbGrantList_length (n : ℕ) : (arbGrantList n rng).1.length = n := by
  induction n generalizing rng with
  | zero => rfl
  | succ n ih => exact congrArg (· + 1) (ih (arbGrant rng).2)

theorem arbGrants_length : (arbGrants rng).1.length ≤ 3 := by
  have hn : (rng.below 4).1 < 4 := rng.below_lt (by omega)
  have hlength : (arbGrants rng).1.length = (rng.below 4).1 := arbGrantList_length (rng.below 4).2 _
  omega

end Generation

theorem generate_eq (w : World) (rng : SplitMix64) : w.generate rng =
    opFor (rng.below w.procs.length).1 ((rng.below w.procs.length).2.below 100).1
      ((rng.below w.procs.length).2.below 100).2 := rfl

theorem opFor_spec {w : World} {p : ℕ} (hp : p < w.procs.length) (choice : ℕ) (rng : SplitMix64) :
    ∃ op rng', opFor p choice rng = (op, rng') ∧ op.InRange w ∧ op.Slim 3 := by
  have hchannel : (rng.below channelCount).1 < channelCount := rng.below_lt (by decide)
  by_cases hnew : choice ≤ 5
  · have hsize : 1 + (rng.below maxRegionSize).1 < 2 ^ 63 := by
      have hlt : (rng.below maxRegionSize).1 < 32 := rng.below_lt (by decide)
      omega
    rw [opFor, if_pos hnew]
    exact ⟨_, _, rfl, ⟨hp, hsize⟩, trivial⟩
  by_cases hspawn : choice ≤ 10
  · rw [opFor, if_neg hnew, if_pos hspawn]
    exact ⟨_, _, rfl, hp, arbGrants_length rng⟩
  by_cases hsend : choice ≤ 28
  · rw [opFor, if_neg hnew, if_neg hspawn, if_pos hsend]
    exact ⟨_, _, rfl, ⟨hp, hchannel⟩, arbGrants_length _⟩
  by_cases hreceive : choice ≤ 46
  · rw [opFor, if_neg hnew, if_neg hspawn, if_neg hsend, if_pos hreceive]
    exact ⟨_, _, rfl, ⟨hp, hchannel⟩, trivial⟩
  by_cases hread : choice ≤ 61
  · rw [opFor, if_neg hnew, if_neg hspawn, if_neg hsend, if_neg hreceive, if_pos hread]
    exact ⟨_, _, rfl, hp, trivial⟩
  by_cases hwrite : choice ≤ 76
  · have hlen : (arbSpan rng).1.2 < 2 ^ 63 := by
      have hlt := arbSpan_len_lt rng
      omega
    rw [opFor, if_neg hnew, if_neg hspawn, if_neg hsend, if_neg hreceive, if_neg hread, if_pos hwrite]
    exact ⟨_, _, rfl, ⟨hp, hlen⟩, trivial⟩
  by_cases hrevoke : choice ≤ 85
  · rw [opFor, if_neg hnew, if_neg hspawn, if_neg hsend, if_neg hreceive, if_neg hread, if_neg hwrite,
      if_pos hrevoke]
    exact ⟨_, _, rfl, hp, trivial⟩
  by_cases hdestroy : choice ≤ 91
  · rw [opFor, if_neg hnew, if_neg hspawn, if_neg hsend, if_neg hreceive, if_neg hread, if_neg hwrite,
      if_neg hrevoke, if_pos hdestroy]
    exact ⟨_, _, rfl, hp, trivial⟩
  · rw [opFor, if_neg hnew, if_neg hspawn, if_neg hsend, if_neg hreceive, if_neg hread, if_neg hwrite,
      if_neg hrevoke, if_neg hdestroy]
    exact ⟨_, _, rfl, hp, trivial⟩

theorem generate_spec {w : World} (rng : SplitMix64) (hprocs : 0 < w.procs.length) :
    ∃ op rng', w.generate rng = (op, rng') ∧ op.InRange w ∧ op.Slim 3 := by
  rw [generate_eq]
  exact opFor_spec (rng.below_lt hprocs) _ _

/-- The operations of a step and of the `next` ones, up to one that fails. -/
def generatedFrom (next : SplitMix64 → World → List Op) (w : World) : Op × SplitMix64 → List Op
  | (op, rng) => op :: match w.execute op with
    | .ok w' => next rng w'
    | .error _ => []

/-- The operations of `n` steps. -/
def generated : ℕ → SplitMix64 → World → List Op
  | 0, _, _ => []
  | n + 1, rng, w => generatedFrom (generated n) w (w.generate rng)

def seededOps (seed : UInt64) (steps : ℕ) : List Op := generated steps (.new seed) World.boot

section Loops
variable {tr : List SystemEntry} {w w' : World} {rng rng' : SplitMix64} {op : Op} {m n j k : ℕ}

theorem generated_succ (hop : w.generate rng = (op, rng')) (hstep : w.execute op = .ok w') :
    generated (n + 1) rng w = op :: generated n rng' w' := by
  rw [generated, hop, generatedFrom, hstep]

theorem exists_generated (n : ℕ) (hop : w.generate rng = (op, rng')) :
    ∃ rest, generated (n + 1) rng w = op :: rest := by
  rw [generated, hop, generatedFrom]
  exact ⟨_, rfl⟩

theorem procs_pos (h : Mirrors tr w) (hprocs : 0 < w.procs.length)
    (h' : Mirrors (tr ++ w.entries op) w') : 0 < w'.procs.length := by
  rw [← h'.spawns, spawnCount_append, h.spawns]
  omega

/-- The next step of a run: the operation is generated and passes, and the model stays in step. -/
structure NextStep (tr : List SystemEntry) (n : ℕ) (rng : SplitMix64) (w : World) (op : Op)
    (rng' : SplitMix64) (w' : World) : Prop where
  generate : w.generate rng = (op, rng')
  inRange : op.InRange w
  slim : op.Slim 3
  execute : w.execute op = .ok w'
  mirrors : Mirrors (tr ++ w.entries op) w'
  procs : 0 < w'.procs.length
  ops : generated (n + 1) rng w = op :: generated n rng' w'
  trace : tr ++ history (generated (n + 1) rng w) w =
    tr ++ w.entries op ++ history (generated n rng' w') w'

theorem exists_nextStep (h : Mirrors tr w) (hprocs : 0 < w.procs.length)
    (hsparing : ∀ op rest, op.Slim 3 → generated (n + 1) rng w = op :: rest →
      Sparing (tr ++ w.entries op)) :
    ∃ op rng' w', NextStep tr n rng w op rng' w' := by
  obtain ⟨op, rng', hop, hrange, hslim⟩ := generate_spec rng hprocs
  obtain ⟨rest, hrest⟩ := exists_generated n hop
  obtain ⟨w', hstep, hmirrors⟩ := execute_mirrors h hrange (hsparing op rest hslim hrest)
  have hsucc : generated (n + 1) rng w = op :: generated n rng' w' := generated_succ hop hstep
  refine ⟨op, rng', w', hop, hrange, hslim, hstep, hmirrors, procs_pos h hprocs hmirrors, hsucc, ?_⟩
  rw [hsucc, history_cons hstep, List.append_assoc]

/-- `n` steps of a run are left at a world. -/
structure Running (tr : List SystemEntry) (n : ℕ) (rng : SplitMix64) (w : World) : Prop where
  mirrors : Mirrors tr w
  procs : 0 < w.procs.length
  sparing : Sparing (tr ++ history (generated n rng w) w)

theorem Running.next (h : Running tr (n + 1) rng w) : ∃ op rng' w',
    NextStep tr n rng w op rng' w' ∧ Running (tr ++ w.entries op) n rng' w' := by
  have hsparing := h.sparing
  have hfirst : ∀ op rest, op.Slim 3 → generated (n + 1) rng w = op :: rest →
      Sparing (tr ++ w.entries op) := by
    intro op rest _ hrest
    rw [hrest, history, ← List.append_assoc] at hsparing
    exact hsparing.earlier
  obtain ⟨op, rng', w', hnext⟩ := exists_nextStep h.mirrors h.procs hfirst
  rw [hnext.trace] at hsparing
  exact ⟨op, rng', w', hnext, hnext.mirrors, hnext.procs, hsparing⟩

/-- The operations that a seed generates are in range and have small batches. -/
theorem generated_inRange (h : Running tr n rng w) :
    AllInRange (generated n rng w) w ∧ (generated n rng w).length = n ∧
      ∀ op ∈ generated n rng w, op.Slim 3 := by
  induction n generalizing rng w tr with
  | zero => exact ⟨trivial, rfl, fun op hop => by cases hop⟩
  | succ n ih =>
    obtain ⟨op, rng', w', hnext, hlater⟩ := h.next
    obtain ⟨hrange, hlength, hslim⟩ := ih hlater
    rw [hnext.ops]
    refine ⟨(allInRange_cons hnext.execute _).mpr ⟨hnext.inRange, hrange⟩,
      congrArg (· + 1) hlength, fun op' hop' => ?_⟩
    rcases List.mem_cons.mp hop' with rfl | hop'
    · exact hnext.slim
    · exact hslim op' hop'

theorem generated_sparing (h : Mirrors tr w) (hprocs : 0 < w.procs.length)
    (hbudget : Budgeted (channelCount + 3) j k (tr.map Entry.call))
    (hfew : (channelCount + 3) * (k + n) < 2 ^ 32) :
    Sparing (tr ++ history (generated n rng w) w) := by
  induction n generalizing rng w tr j k with
  | zero =>
    rw [generated, history, List.append_nil]
    intro id
    exact (h.run.grantCount_le (by decide) hbudget id).trans_lt hfew
  | succ n ih =>
    have hfirst : ∀ op, op.Slim 3 →
        Budgeted (channelCount + 3) (j + [op].countP Op.records) (k + 1)
          ((tr ++ w.entries op).map Entry.call) := by
      intro op hop
      rw [List.map_append, World.entries, map_call_trace]
      exact hbudget.append (calls_budgeted w hop)
    have hsum : k + 1 + n = k + (n + 1) := by omega
    have hle : (channelCount + 3) * (k + 1) < 2 ^ 32 :=
      (Nat.mul_le_mul_left _ (by omega)).trans_lt hfew
    have hsparing : ∀ op rest, op.Slim 3 → generated (n + 1) rng w = op :: rest →
        Sparing (tr ++ w.entries op) := by
      intro op _ hslim _ id
      have hrun := run_calls h.run (w.calls op)
      exact (hrun.grantCount_le (by decide) (hfirst op hslim) id).trans_lt hle
    obtain ⟨op, rng', w', hnext⟩ := exists_nextStep h hprocs hsparing
    rw [hnext.trace]
    apply ih hnext.mirrors hnext.procs (hfirst op hnext.slim)
    rwa [hsum]

theorem runStep_ok (config : ChaosConfig)
    (next : ℕ → SplitMix64 → World → Option Fault → Except ChaosFailure World) (step : ℕ)
    {w'' : World} {fault fault' : Option Fault} (hstep : w.execute op = .ok w')
    (hinject : w'.inject fault step = .ok (w'', fault')) (hsweep : w''.sweep = .ok ()) :
    runStep config next step (op, rng) w fault = next (step + 1) rng w'' fault' := by
  rw [runStep, hstep]
  change (config.guarded step _ _ (w'.inject fault step) >>= _) = _
  rw [hinject]
  change (config.guarded step _ _ w''.sweep >>= fun _ => next (step + 1) rng w'' fault') = _
  rw [hsweep]
  rfl

/-- A run without a fault is the audited sequence of its operations. -/
theorem runLoop_eq (config : ChaosConfig) (step : ℕ) (h : Running tr n rng w) :
    ∃ w', runLoop config n step rng w none = .ok w' ∧ audited (generated n rng w) w = .ok w' ∧
      Mirrors (tr ++ history (generated n rng w) w) w' := by
  induction n generalizing step rng w tr with
  | zero =>
    refine ⟨w, rfl, rfl, ?_⟩
    rw [generated, history, List.append_nil]
    exact h.mirrors
  | succ n ih =>
    obtain ⟨op, rng', w', hnext, hlater⟩ := h.next
    obtain ⟨w'', hloop, haudited, hmirrors⟩ := ih (step + 1) hlater
    rw [hnext.trace]
    refine ⟨w'', ?_, ?_, hmirrors⟩
    · rw [runLoop, hnext.generate, runStep_ok config _ step hnext.execute rfl hnext.mirrors.sweep_ok]
      exact hloop
    · rw [hnext.ops, audited, hnext.execute, ok_bind, hnext.mirrors.sweep_ok]
      exact haudited

end Loops

section Seeds
variable {seed : UInt64} {steps : ℕ}

theorem boot_procs : 0 < World.boot.procs.length := by decide +kernel

theorem boot_running (hsparing : Sparing (runTrace (seededOps seed steps))) :
    Running bootTrace steps (.new seed) World.boot := ⟨boot_mirrors, boot_procs, hsparing⟩

theorem seededOps_spec (hsparing : Sparing (runTrace (seededOps seed steps))) :
    AllInRange (seededOps seed steps) World.boot ∧ (seededOps seed steps).length = steps ∧
      ∀ op ∈ seededOps seed steps, op.Slim 3 := generated_inRange (boot_running hsparing)

theorem seededOps_sparing (seed : UInt64) (hfew : (channelCount + 3) * (6 + steps) < 2 ^ 32) :
    Sparing (runTrace (seededOps seed steps)) := by
  have hboot : Budgeted (channelCount + 3) 0 6 (bootTrace.map Entry.call) := by
    rw [bootTrace, map_call_trace]
    exact boot_budgeted
  exact generated_sparing boot_mirrors boot_procs hboot hfew

theorem runLoop_seededOps (config : ChaosConfig)
    (hsparing : Sparing (runTrace (seededOps config.seed config.steps))) :
    ∃ w, runLoop config config.steps 0 (.new config.seed) World.boot none = .ok w ∧
      audited (seededOps config.seed config.steps) World.boot = .ok w ∧
      Mirrors (runTrace (seededOps config.seed config.steps)) w :=
  runLoop_eq config 0 (boot_running hsparing)

end Seeds
end Muaddib.Chaos
