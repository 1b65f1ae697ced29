import Muaddib.BaselineRuns
import Muaddib.PipelineStatistics

/-! # The kernel pipeline and the baseline agree

Both are the ring, the one under the scheduler's rotation and the other under its own turn counter,
and the two schedules part only when that counter wraps in the middle of a round. -/
namespace Muaddib
open RingPipelines KernelPipeline
open Baseline (startRing bootRing_bytes start_kinds mirrors_start)

namespace PipelineConfig
variable (config : PipelineConfig) (clocks : Bool)

/-- The baseline ends, and returns `result` however much fuel is left. -/
def BaselineReturns (result : Fallible BaselineReport) : Prop :=
  ∃ enough, ∀ fuel, runBaseline fuel config clocks = if enough ≤ fuel then some result else none

/-- Both runs finish with the same results and statistics, or both stall after the same turns. -/
def Agrees : Prop :=
  (∃ report baseline, config.Returns (.ok report) ∧ config.BaselineReturns clocks (.ok baseline) ∧
    report.results = baseline.results ∧ report.stats = baseline.stats) ∨
  ∃ turns, config.Returns (.error (.err (.stalled turns))) ∧
    config.BaselineReturns clocks (.error (.err (.stalled turns)))

def turns : ℕ :=
  if config.batches = 0 then 0
  else if config.pool = 0 then config.stages + 4
  else (config.stages + 3) * ((config.batches.toNat - 1) / min config.pool (config.stages + 1) *
    (config.stages + 1) + (config.batches.toNat - 1) % min config.pool (config.stages + 1) +
    config.stages + 1) + 2

end PipelineConfig

section Agreement
variable {config : PipelineConfig} {clocks : Bool}

theorem runBaseline_mono {result : Fallible BaselineReport} {fuel fuel' : ℕ}
    (h : runBaseline fuel config clocks = some result) (hle : fuel ≤ fuel') :
    runBaseline fuel' config clocks = some result := by
  unfold runBaseline at *
  cases hpool : Baseline.newPool config with
  | error e =>
    rw [hpool] at h
    exact h
  | ok pool =>
    rw [hpool] at h
    exact Baseline.runLoop_mono h hle

theorem PipelineConfig.BaselineReturns.of_run {result : Fallible BaselineReport} {fuel : ℕ}
    (h : runBaseline fuel config clocks = some result) : config.BaselineReturns clocks result :=
  exists_enough runBaseline_mono h

theorem PipelineConfig.BaselineReturns.unique {result result' : Fallible BaselineReport}
    (h : config.BaselineReturns clocks result) (h' : config.BaselineReturns clocks result') :
    result = result' := by
  obtain ⟨enough, hall⟩ := h
  obtain ⟨enough', hall'⟩ := h'
  have hboth := (hall (max enough enough')).symm.trans (hall' (max enough enough'))
  rw [if_pos (Nat.le_max_left ..), if_pos (Nat.le_max_right ..)] at hboth
  exact Option.some.inj hboth

theorem boot_turns (hbatches : 0 < config.batches.toNat) (hpool : 0 < config.pool)
    {fuel turns idle : ℕ} {r : Carousel Token UInt64}
    (hspin : spin (regionWork config) config.stages config.batches.toNat (roundRobin config.stages)
      fuel 0 0 0 (bootRing config) = some (.finished turns idle r)) : turns = config.turns := by
  have hturns := spin_turns_eq (by rwa [bootTokens_length]) hbatches hspin
  have hsome : ¬config.batches = 0 := fun h => hbatches.ne' (UInt64.toNat_inj.mpr h)
  rw [bootTokens_length] at hturns
  rw [PipelineConfig.turns, if_neg hsome, if_neg hpool.ne']
  exact hturns

/-- The kernel pipeline's ring ends after `config.turns` turns. -/
theorem boot_ends (hfits : config.Fits) (hallocates : config.Allocates) :
    ∃ fuel ending, spin (regionWork config) config.stages config.batches.toNat
      (roundRobin config.stages) fuel 0 0 0 (bootRing config) = some ending ∧
      ending.turns = config.turns := by
  by_cases hbatches : config.batches = 0
  · refine ⟨1, .finished 0 0 (bootRing config), ?_, by rw [PipelineConfig.turns, if_pos hbatches]; rfl⟩
    rw [spin, hbatches]
    rfl
  · by_cases hpool : config.pool = 0
    · refine ⟨_, _, boot_stalls hpool (UInt64.pos_iff_ne_zero.mpr hbatches), ?_⟩
      rw [PipelineConfig.turns, if_neg hbatches, if_pos hpool]
      rfl
    · have hpos := Nat.pos_of_ne_zero hpool
      have hsome : 0 < config.batches.toNat :=
        Nat.pos_of_ne_zero fun h => hbatches (UInt64.toNat_inj.mp h)
      obtain ⟨fuel, turns, idle, r, hspin, -⟩ := boot_spins hfits hallocates (Or.inr hpos)
      exact ⟨fuel, _, hspin, boot_turns hsome hpos hspin⟩

theorem baseline_concludes (hfits : config.Fits) (hallocates : config.Allocates) (clocks : Bool)
    {ending : Ending Bytes UInt64} {fuel : ℕ} (hspin : spin (bytesWork config.seed) config.stages config.batches.toNat
      (turnSchedule config.stages) fuel 0 0 0 (startRing config) = some ending) :
    ∃ result, config.BaselineReturns clocks result ∧ Baseline.Concludes config ending result := by
  obtain ⟨result, hrun, hconcludes⟩ :=
    (mirrors_start config clocks).runLoop hfits fuel (Nat.zero_le _) hspin
  have hstages (pool : List Bytes) :
      (Baseline.start config clocks pool).stages.length = config.stages + 3 := by
    rw [← length_seats, ← start_kinds config clocks pool, List.length_map]
  have hwhole : runBaseline fuel config clocks = some result := by
    simp only [runBaseline, Baseline.newPool, if_pos hallocates, hstages]
    exact hrun
  exact ⟨result, .of_run hwhole, hconcludes⟩

theorem baseline_ends (config : PipelineConfig) :
    ∃ fuel ending, spin (bytesWork config.seed) config.stages config.batches.toNat
      (turnSchedule config.stages) fuel 0 0 0 (startRing config) = some ending :=
  ⟨_, spin_ends (fun t => roundRobin_mem config.stages (t % 2 ^ 64)) _ (Nat.zero_le _)
    (Nat.lt_succ_self _)⟩

theorem turnSchedule_sink {stages t : ℕ} (h : turnSchedule stages t = .sink) :
    t % 2 ^ 64 % (stages + 3) = 1 := by
  have hseat := Baseline.turnSchedule_eq stages t
  rw [h] at hseat
  have hlt := (List.getElem?_eq_some_iff.mp hseat).1
  exact (List.getElem?_inj hlt (nodup_seats stages)).mp (hseat.trans rfl)

/-- Both runs end with a turn of the sink, so they agree only if the last turn of the kernel pipeline
would be the sink's in the baseline too. -/
theorem sink_of_agrees (hfits : config.Fits) (hallocates : config.Allocates)
    (hbatches : 0 < config.batches.toNat) (hpool : 0 < config.pool) (h : config.Agrees clocks) :
    (config.turns - 1) % 2 ^ 64 % (config.stages + 3) = 1 := by
  obtain ⟨fuel, turns, idle, r, hspin, -⟩ := boot_spins hfits hallocates (Or.inr hpool)
  obtain ⟨report, calls, streak, kp, hreturns, -, hunderway⟩ := run_reports hfits hallocates hspin
  have hexact := boot_turns hbatches hpool hspin
  rcases h with ⟨report', baseline, hkernel, hbaseline, -, hstats⟩ | ⟨stalled, hkernel, -⟩
  · obtain rfl := Except.ok.inj (hreturns.unique hkernel)
    obtain ⟨fuel', ending, hends⟩ := baseline_ends config
    obtain ⟨result, hreturns', hconcludes⟩ := baseline_concludes hfits hallocates clocks hends
    obtain rfl := hreturns'.unique hbaseline
    cases ending with
    | stalled turns' => exact hconcludes.elim
    | finished turns' idle' r' =>
      obtain ⟨hpositive, hsink⟩ := spin_last hends hbatches
      have hlast := turnSchedule_sink hsink
      -- both counts of turns are read off the same statistics
      have hsame : UInt64.ofNat turns = UInt64.ofNat turns' := by
        have hkernelTurns := congrArg Stats.schedulerTurns hunderway.reported.stats
        have hbaselineTurns := congrArg Stats.schedulerTurns hconcludes.stats
        exact hkernelTurns.symm.trans ((congrArg Stats.schedulerTurns hstats).trans hbaselineTurns)
      have hmod := congrArg UInt64.toNat hsame
      rw [UInt64.toNat_ofNat', UInt64.toNat_ofNat', hexact] at hmod
      have hsome : 0 < config.turns := by
        rw [← hexact]
        exact (spin_last hspin hbatches).1
      have hbefore : (config.turns - 1) % 2 ^ 64 = (turns' - 1) % 2 ^ 64 := by omega
      rw [hbefore]
      exact hlast
  · cases hreturns.unique hkernel

/-- The turn counter keeps the rotation until it wraps, and beyond where a whole number of rounds fits
in its range. -/
theorem turnSchedule_eq_roundRobin {stages turns t : ℕ}
    (h : turns ≤ 2 ^ 64 ∨ stages + 3 ∣ 2 ^ 64) (ht : t < turns) :
    turnSchedule stages t = roundRobin stages t := by
  rcases h with hfew | hwhole
  · rw [turnSchedule, Nat.mod_eq_of_lt (lt_of_lt_of_le ht hfew)]
  · rw [turnSchedule, roundRobin, roundRobin, Nat.mod_mod_of_dvd t hwhole]

/-- The kernel pipeline and the baseline agree as long as the regions can be allocated and no turn
counter wraps in the middle of a round. -/
theorem pipeline_agrees_with_baseline (config : PipelineConfig) (clocks : Bool)
    (hfits : config.Fits) (hallocates : config.Allocates)
    (hturns : config.turns ≤ 2 ^ 64 ∨ config.stages + 3 ∣ 2 ^ 64) : config.Agrees clocks := by
  obtain ⟨fuel, ending, hspin, hlast⟩ := boot_ends hfits hallocates
  obtain ⟨result, hreturns, hconcludes⟩ := run_concludes hfits hallocates hspin
  have hbytes := spin_map (regionWork_commutes config) config.stages config.batches.toNat
    (roundRobin config.stages) fuel 0 0 0 (bootRing config)
  rw [bootRing_bytes, hspin, Option.map_some] at hbytes
  have hagree : ∀ t, t < (ending.map Token.bytes).turns →
      turnSchedule config.stages t = roundRobin config.stages t := by
    intro t ht
    apply turnSchedule_eq_roundRobin hturns
    rw [← hlast]
    cases ending <;> exact ht
  obtain ⟨result', hreturns', hconcludes'⟩ :=
    baseline_concludes hfits hallocates clocks (spin_congr hbytes hagree)
  cases ending with
  | finished turns idle r =>
    cases result with
    | error e => exact hconcludes.elim
    | ok report =>
      cases result' with
      | error e => exact hconcludes'.elim
      | ok baseline =>
        obtain ⟨calls, streak, kp, -, hunderway⟩ := hconcludes
        exact Or.inl ⟨report, baseline, hreturns, hreturns',
          hunderway.reported.results.trans hconcludes'.results.symm,
          hunderway.reported.stats.trans hconcludes'.stats.symm⟩
  | stalled turns =>
    match result, hconcludes with
    | .error (.err (.stalled _)), hkernel =>
      match result', hconcludes' with
      | .error (.err (.stalled _)), hbaseline =>
        obtain rfl : _ = UInt64.ofNat turns := hkernel
        obtain rfl : _ = UInt64.ofNat turns := hbaseline
        exact Or.inr ⟨_, hreturns, hreturns'⟩

/-- Neither condition can be dropped. A run of more than `2 ^ 64` turns, through `2 ^ 21 - 2` stages
with one region: after the turn counter wraps the baseline begins a round where the kernel pipeline
is in the middle of one. And a region above `isize::MAX` lets neither pipeline start. -/
theorem baseline_overtakes :
    (¬∀ config clocks, PipelineConfig.Fits config →
      config.batches.toNat * (config.stages + 2) * config.regionSize < 2 ^ 64 →
      config.Allocates → config.Agrees clocks) ∧
    ¬∀ config clocks, PipelineConfig.Fits config →
      config.batches.toNat * (config.stages + 2) * config.regionSize < 2 ^ 64 →
      config.turns ≤ 2 ^ 64 → config.Agrees clocks := by
  refine ⟨fun hall => ?_, fun hall => ?_⟩
  · have hfits : PipelineConfig.Fits ⟨4194308, 0, 1, 2097150, 0, false⟩ := by
      unfold PipelineConfig.Fits
      decide
    have hsink := sink_of_agrees hfits (by decide) (by decide) (by decide)
      (hall ⟨4194308, 0, 1, 2097150, 0, false⟩ false hfits (by decide) (by decide))
    revert hsink
    decide
  · have hpanics : PipelineConfig.Returns ⟨0, 2 ^ 63, 1, 0, 0, false⟩
        (.error (.panic "capacity overflow")) := by
      refine ⟨0, fun fuel => ?_⟩
      rw [runKernelPipeline, new_overflows (by decide), if_pos (Nat.zero_le fuel)]
    rcases hall ⟨0, 2 ^ 63, 1, 0, 0, false⟩ false (by unfold PipelineConfig.Fits; decide) (by decide)
      (by decide) with ⟨report, -, hreturns, -⟩ | ⟨turns, hreturns, -⟩
    · cases hpanics.unique hreturns
    · cases hpanics.unique hreturns

theorem five_batches_agree : PipelineConfig.Agrees ⟨5, 4, 2, 2, 42, false⟩ true :=
  pipeline_agrees_with_baseline ⟨5, 4, 2, 2, 42, false⟩ true (by unfold PipelineConfig.Fits; decide)
    (Or.inr (by decide)) (Or.inl (by decide))

end Agreement
end Muaddib
