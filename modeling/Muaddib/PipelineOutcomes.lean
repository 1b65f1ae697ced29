import Muaddib.PipelineRuns

/-! # How a pipeline run ends

With a region in the pool every batch gets through the ring. Without one nobody ever has anything to
do, and the run stalls. -/
namespace Muaddib
open RingPipelines KernelPipeline Carousel

/-- The run ends, and returns `result` however much fuel is left. -/
def PipelineConfig.Returns (config : PipelineConfig) (result : Fallible PipelineReport) : Prop :=
  ∃ enough, ∀ fuel, runKernelPipeline fuel config = if enough ≤ fuel then some result else none

section Returns
variable {config : PipelineConfig} {result : Fallible PipelineReport} {fuel fuel' : ℕ}

theorem runKernelPipeline_mono (h : runKernelPipeline fuel config = some result)
    (hle : fuel ≤ fuel') : runKernelPipeline fuel' config = some result := by
  unfold runKernelPipeline at *
  cases hnew : KernelPipeline.new config with
  | error e =>
    rw [hnew] at h
    exact h
  | ok kp =>
    rw [hnew] at h
    exact runLoop_mono h hle

/-- The least fuel that is enough tells the runs that end from those that do not. -/
theorem exists_enough {α : Type} {run : ℕ → Option α} {result : α}
    (hmono : ∀ {fuel fuel' result}, run fuel = some result → fuel ≤ fuel' → run fuel' = some result)
    (h : run fuel = some result) :
    ∃ enough, ∀ fuel, run fuel = if enough ≤ fuel then some result else none := by
  classical
  have hsome : ∃ fuel, (run fuel).isSome := ⟨fuel, by rw [h]; rfl⟩
  refine ⟨Nat.find hsome, fun fuel' => ?_⟩
  obtain ⟨first, hfirst⟩ := Option.isSome_iff_exists.mp (Nat.find_spec hsome)
  have hresult : first = result := by
    have hleft := hmono hfirst (Nat.le_max_left (Nat.find hsome) fuel)
    have hright := hmono h (Nat.le_max_right (Nat.find hsome) fuel)
    exact Option.some.inj (hleft.symm.trans hright)
  split
  · next henough => exact hmono (hresult ▸ hfirst) henough
  · next hshort =>
    have hnone := Nat.find_min hsome (Nat.lt_of_not_le hshort)
    exact Option.not_isSome_iff_eq_none.mp hnone

theorem PipelineConfig.Returns.of_run (h : runKernelPipeline fuel config = some result) :
    config.Returns result := exists_enough runKernelPipeline_mono h

theorem PipelineConfig.Returns.unique {result' : Fallible PipelineReport}
    (h : config.Returns result) (h' : config.Returns result') : result = result' := by
  obtain ⟨enough, hall⟩ := h
  obtain ⟨enough', hall'⟩ := h'
  have hboth := (hall (max enough enough')).symm.trans (hall' (max enough enough'))
  rw [if_pos (Nat.le_max_left ..), if_pos (Nat.le_max_right ..)] at hboth
  exact Option.some.inj hboth

end Returns

section Runs
variable {config : PipelineConfig}

def bootRing (config : PipelineConfig) : Carousel Token UInt64 := Carousel.start (bootTokens config)

/-- The run ends as the ring does. -/
theorem run_concludes (hfits : config.Fits) (hallocates : config.Allocates) {ending : Ending Token UInt64} {fuel : ℕ}
    (hspin : spin (regionWork config) config.stages config.batches.toNat (roundRobin config.stages)
      fuel 0 0 0 (bootRing config) = some ending) :
    ∃ result, config.Returns result ∧ Concludes config ending result := by
  obtain ⟨kp, hnew, hbooted⟩ := new_boots hfits hallocates
  have hstages : kp.stages.length = config.stages + 3 := by
    rw [hbooted.ring.crewed.length, length_seats]
  obtain ⟨result, hrun, hconcludes⟩ :=
    (Underway.start hbooted).runLoop hfits fuel (Between.boot hnew) (Nat.zero_le _) hspin
  have hwhole : runKernelPipeline (fuel + (config.pool + 1)) config = some result := by
    rw [runKernelPipeline, hnew]
    change KernelPipeline.runLoop (UInt64.ofNat kp.stages.length) _ _ _ _ = _
    rw [hstages]
    exact hrun
  exact ⟨result, .of_run hwhole, hconcludes⟩

structure Finished (config : PipelineConfig) (report : PipelineReport) (r : Carousel Token UInt64) :
    Prop where
  underway : ∃ calls streak kp t idle, Between config calls streak kp report ∧
    Underway config calls kp report t idle r
  all_done : r.results.length = config.batches.toNat

/-- With nothing to do, or a region to do it in, the ring finishes every batch. -/
theorem boot_spins (hfits : config.Fits) (hallocates : config.Allocates)
    (hpossible : config.batches = 0 ∨ 0 < config.pool) :
    ∃ fuel turns idle r, spin (regionWork config) config.stages config.batches.toNat
      (roundRobin config.stages) fuel 0 0 0 (bootRing config) = some (.finished turns idle r) ∧
      config.batches.toNat ≤ r.results.length := by
  rcases hpossible with hnone | hpos
  · have hzero : config.batches.toNat = 0 := by rw [hnone]; rfl
    refine ⟨1, 0, 0, bootRing config, ?_, ?_⟩
    · rw [spin, hzero]
      rfl
    · omega
  · have hsound := (Underway.start (new_boots hfits hallocates).choose_spec.2).sound
    obtain ⟨turns, idle, r, hspin, -, hdone⟩ :=
      spin_finishes (bytesWork_lawful config.seed config.regionSize) hpos _ hsound (Nat.zero_le 0)
        (Nat.zero_le _) (fun j hj => absurd hj (Nat.not_lt_zero j)) (Nat.lt_succ_self _)
    rw [spin_map (regionWork_commutes config)] at hspin
    obtain ⟨ending, hending, hmap⟩ := Option.map_eq_some_iff.mp hspin
    cases ending with
    | stalled turns => cases hmap
    | finished turns' idle' r' =>
      obtain ⟨-, -, rfl⟩ := Ending.finished.inj hmap
      exact ⟨_, turns', idle', r', hending, hdone⟩

/-- The run ends with the ring that finished, and reports what the ring counted. -/
theorem run_reports (hfits : config.Fits) (hallocates : config.Allocates) {fuel turns idle : ℕ}
    {r : Carousel Token UInt64}
    (hspin : spin (regionWork config) config.stages config.batches.toNat (roundRobin config.stages)
      fuel 0 0 0 (bootRing config) = some (.finished turns idle r)) :
    ∃ report calls streak kp, config.Returns (.ok report) ∧ Between config calls streak kp report ∧
      Underway config calls kp report turns idle r := by
  obtain ⟨result, hreturns, hconcludes⟩ := run_concludes hfits hallocates hspin
  cases result with
  | error e => exact hconcludes.elim
  | ok report =>
    obtain ⟨calls, streak, kp, hbetween, hunderway⟩ := hconcludes
    exact ⟨report, calls, streak, kp, hreturns, hbetween, hunderway⟩

theorem PipelineConfig.Returns.allocates {report : PipelineReport} (h : config.Returns (.ok report)) :
    config.Allocates := by
  obtain ⟨enough, hall⟩ := h
  by_contra hallocates
  have hrun := hall enough
  rw [runKernelPipeline, new_overflows hallocates, if_pos le_rfl] at hrun
  cases hrun

/-- With nothing to do, or a region to do it in, the run finishes. -/
theorem run_finishes (hfits : config.Fits) (hallocates : config.Allocates)
    (hpossible : config.batches = 0 ∨ 0 < config.pool) :
    ∃ report r, config.Returns (.ok report) ∧ Finished config report r := by
  obtain ⟨fuel, turns, idle, r, hspin, hdone⟩ := boot_spins hfits hallocates hpossible
  obtain ⟨report, calls, streak, kp, hreturns, hbetween, hunderway⟩ := run_reports hfits hallocates hspin
  have hb := hunderway.inBounds hfits
  exact ⟨report, r, hreturns, ⟨calls, streak, kp, turns, idle, hbetween, hunderway⟩,
    Nat.le_antisymm (hb.done_le.trans hb.next_le) hdone⟩

theorem turn_idle_of_no_pool (hpool : config.pool = 0) (seat : Seat) :
    ((bootRing config).turn (regionWork config) config.stages config.batches.toNat seat).1 = false := by
  have hring : bootRing config = Carousel.start [] := by
    rw [bootRing, bootTokens, hpool]
    rfl
  rw [hring]
  cases seat with
  | supervisor | sink | transformer i => rfl
  | producer =>
    rw [Carousel.turn]
    split <;> rfl

theorem boot_stalls (hpool : config.pool = 0) (hbatches : 0 < config.batches) :
    spin (regionWork config) config.stages config.batches.toNat (roundRobin config.stages)
      (config.stages + 4) 0 0 0 (bootRing config) = some (.stalled (config.stages + 4)) := by
  have hunfinished : (bootRing config).results.length < config.batches.toNat :=
    UInt64.lt_iff_toNat_lt.mp hbatches
  have hspin : spin (regionWork config) config.stages config.batches.toNat (roundRobin config.stages)
      (config.stages + 4) 0 0 0 (bootRing config) = some (.stalled (0 + (config.stages + 3 - 0) + 1)) :=
    spin_stalls hunfinished (fun t => turn_idle_of_no_pool hpool (roundRobin config.stages t))
      (config.stages + 4) (Nat.zero_le _) (by omega)
  rwa [Nat.zero_add] at hspin

theorem run_stalls (hfits : config.Fits) (hpool : config.pool = 0) (hbatches : 0 < config.batches) :
    config.Returns (.error (.err (.stalled (UInt64.ofNat (config.stages + 4))))) := by
  obtain ⟨result, hreturns, hconcludes⟩ :=
    run_concludes hfits (Or.inl hpool) (boot_stalls hpool hbatches)
  match result, hconcludes with
  | .error (.err (.stalled turns)), hturns =>
    obtain rfl : turns = _ := hturns
    exact hreturns

/-- The batches come out in order, each with its reference checksum. -/
theorem Finished.results {report : PipelineReport} {r : Carousel Token UInt64}
    (h : Finished config report r) : report.results = (List.range config.batches.toNat).map fun b =>
      ⟨UInt64.ofNat b,
        referenceChecksum config.seed (UInt64.ofNat b) config.regionSize config.stages⟩ := by
  obtain ⟨calls, streak, kp, t, idle, -, hunderway⟩ := h.underway
  have hresults : r.results = _ := hunderway.sound.results
  have hlen : (Carousel.map Token.bytes r).results.length = config.batches.toNat := h.all_done
  rw [hunderway.reported.results, hresults, hlen, List.map_map]
  apply List.map_congr_left
  intro b _
  rw [Function.comp_apply, bytesWork_content, referenceChecksum_eq]
  rfl

/-- If its regions can be allocated the pipeline boots, finishes every batch with its reference
checksum or stalls for want of a region, and knows no other end. -/
theorem kernel_pipeline_computes_reference (config : PipelineConfig) (hfits : config.Fits)
    (hallocates : config.Allocates) :
    (∃ kp, KernelPipeline.new config = .ok kp) ∧
    (config.batches = 0 ∨ 0 < config.pool → ∃ report, config.Returns (.ok report) ∧
      report.results = (List.range config.batches.toNat).map fun b => ⟨UInt64.ofNat b,
        referenceChecksum config.seed (UInt64.ofNat b) config.regionSize config.stages⟩) ∧
    (config.pool = 0 → 0 < config.batches →
      ∃ turns, config.Returns (.error (.err (.stalled turns)))) := by
  refine ⟨?_, fun hpossible => ?_, fun hpool hbatches => ⟨_, run_stalls hfits hpool hbatches⟩⟩
  · obtain ⟨kp, hnew, -⟩ := new_boots hfits hallocates
    exact ⟨kp, hnew⟩
  · obtain ⟨report, r, hreturns, hfinished⟩ := run_finishes hfits hallocates hpossible
    exact ⟨report, hreturns, hfinished.results⟩

theorem kernel_pipeline_computes_three_batches :
    ∃ report, PipelineConfig.Returns ⟨3, 2, 1, 1, 42, false⟩ (.ok report) ∧ report.results =
      [⟨0, referenceChecksum 42 0 2 1⟩, ⟨1, referenceChecksum 42 1 2 1⟩,
        ⟨2, referenceChecksum 42 2 2 1⟩] :=
  (kernel_pipeline_computes_reference ⟨3, 2, 1, 1, 42, false⟩ (by unfold PipelineConfig.Fits; decide)
    (Or.inr (by decide))).2.1 (Or.inr (by decide))

/-- Without batches the bounds on the counters leave the size of the regions open. -/
theorem boot_overflows : ¬∀ config : PipelineConfig, config.Fits →
    config.batches.toNat * (config.stages + 2) * config.regionSize < 2 ^ 64 →
    ∃ kp, KernelPipeline.new config = .ok kp := by
  intro hall
  obtain ⟨kp, hnew⟩ := hall ⟨0, 2 ^ 63, 1, 0, 0, false⟩ (by unfold PipelineConfig.Fits; decide)
    (by decide)
  cases (new_overflows (by decide)).symm.trans hnew

end Runs
end Muaddib
