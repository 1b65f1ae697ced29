import Muaddib.PipelineOutcomes
import Muaddib.RingTimings

/-! # The statistics of a pipeline run

A run of the pipeline is a run of the ring, whose turns and messages are known in advance. -/
namespace Muaddib
open RingPipelines KernelPipeline Carousel

theorem bootTokens_length (config : PipelineConfig) : (bootTokens config).length = config.pool := by
  simp [bootTokens]

/-- Every batch makes a message at each of its hands and fills its region once at each. A run takes
`stages + 3` turns for each round, up to the round of the last batch, `stages + 1` rounds more, and
two turns of the last. -/
theorem statistics_closed_form (config : PipelineConfig) (hfits : config.Fits)
    (hbatches : 1 ≤ config.batches.toNat) (hpool : 1 ≤ config.pool)
    (hbytes : config.batches.toNat * (config.stages + 2) * config.regionSize < 2 ^ 64)
    (hturns : (config.stages + 3) * ((config.batches.toNat - 1) / min config.pool (config.stages + 1) *
        (config.stages + 1) + (config.batches.toNat - 1) % min config.pool (config.stages + 1) +
        config.stages + 1) + 2 < 2 ^ 64) :
    ∃ report, config.Returns (.ok report) ∧
      report.stats.messages.toNat = config.batches.toNat * (config.stages + 2) ∧
      report.stats.bytesProcessed.toNat =
        config.batches.toNat * (config.stages + 2) * config.regionSize ∧
      report.stats.schedulerTurns.toNat = (config.stages + 3) *
        ((config.batches.toNat - 1) / min config.pool (config.stages + 1) * (config.stages + 1) +
          (config.batches.toNat - 1) % min config.pool (config.stages + 1) + config.stages + 1) + 2 := by
  have hallocates : config.Allocates := by
    have hone : 1 * 2 ≤ config.batches.toNat * (config.stages + 2) :=
      Nat.mul_le_mul hbatches (Nat.le_add_left ..)
    have hsize := Nat.mul_le_mul_right config.regionSize hone
    exact Or.inr (by omega)
  obtain ⟨fuel, turns, idle, r, hspin, hdone⟩ := boot_spins hfits hallocates (Or.inr hpool)
  obtain ⟨report, calls, streak, kp, hreturns, -, hunderway⟩ := run_reports hfits hallocates hspin
  have hexact := spin_turns_eq (by rwa [bootTokens_length]) hbatches hspin
  rw [bootTokens_length] at hexact
  obtain ⟨m, -, hring, -, -⟩ := spin_finished fuel hspin
  have hposted : Posted config.stages r := hring ▸ posted_afterTurns (posted_start _) 0 m
  have hmessages := hposted.messages_eq (hunderway.inBounds hfits).counted hdone
  have hstats := hunderway.reported.stats
  have hfew : config.batches.toNat * (config.stages + 2) < 2 ^ 64 := by
    unfold PipelineConfig.Fits at hfits
    calc config.batches.toNat * (config.stages + 2) ≤ 2 ^ 32 * (config.stages + 2) :=
          Nat.mul_le_mul_right _ (by omega)
      _ < 2 ^ 32 * 2 ^ 32 := Nat.mul_lt_mul_of_pos_left (by omega) (by decide)
      _ = 2 ^ 64 := by norm_num
  refine ⟨report, hreturns, ?_, ?_, ?_⟩
  · rw [hstats, hmessages, UInt64.toNat_ofNat', Nat.mod_eq_of_lt hfew]
  · rw [hstats, hmessages, UInt64.toNat_ofNat', Nat.mod_eq_of_lt hbytes]
  · rw [hstats, hexact, lastRound, UInt64.toNat_ofNat', Nat.mod_eq_of_lt hturns]

/-- Five batches through two stages with two regions: a lap of three rounds for every two. -/
theorem statistics_of_five_batches : ∃ report,
    PipelineConfig.Returns ⟨5, 4, 2, 2, 42, false⟩ (.ok report) ∧ report.stats.messages.toNat = 20 ∧
      report.stats.bytesProcessed.toNat = 80 ∧ report.stats.schedulerTurns.toNat = 47 :=
  statistics_closed_form ⟨5, 4, 2, 2, 42, false⟩ (by unfold PipelineConfig.Fits; decide) (by decide)
    (by decide) (by decide) (by decide)

end Muaddib
