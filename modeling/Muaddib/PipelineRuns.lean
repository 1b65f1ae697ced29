import Muaddib.PipelineBoot

/-! # Runs of the kernel pipeline

The states between two turns are those the loop of `run` goes through. In each of them the pipeline
is the ring, as it is after as many turns. -/
namespace Muaddib
open RingPipelines

namespace KernelPipeline
variable {fuel fuel' : ℕ}

theorem drainReturns_mono {input : Capability} {progressed : Bool} {t : Turn}
    {result : Fallible (Bool × Turn)} (h : drainReturns input fuel progressed t = some result)
    (hle : fuel ≤ fuel') : drainReturns input fuel' progressed t = some result ∧
      drainCalls input t.stage.pid fuel' t.kp = drainCalls input t.stage.pid fuel t.kp := by
  induction fuel generalizing fuel' progressed t with
  | zero => cases h
  | succ fuel ih =>
    obtain ⟨fuel', rfl⟩ : ∃ n, fuel' = n + 1 := ⟨fuel' - 1, by omega⟩
    rw [drainReturns] at h ⊢
    rw [drainCalls, drainCalls]
    cases hreceive : t.kp.receive t.stage.pid input with
    | error e =>
      rw [hreceive] at h
      exact ⟨h, rfl⟩
    | ok received =>
      obtain ⟨delivery, kp⟩ := received
      rw [hreceive] at h
      cases delivery with
      | none => exact ⟨h, rfl⟩
      | some d =>
        cases hhandles : d.handles with
        | nil =>
          simp only [hhandles] at h ⊢
          exact ⟨h, trivial⟩
        | cons region rest =>
          simp only [hhandles] at h ⊢
          obtain ⟨hresult, hcalls⟩ := ih h (Nat.le_of_succ_le_succ hle)
          exact ⟨hresult, congrArg _ hcalls⟩

theorem expect_capOf (kp : KernelPipeline) (pid : ProcessId) (message : String)
    (handle : Option Handle) :
    (∃ c, expect message handle >>= capOf kp.sched pid = .ok c ∧ kp.capAt pid handle = some c) ∨
      ∃ e, expect message handle >>= capOf kp.sched pid = .error e ∧ kp.capAt pid handle = none := by
  cases handle with
  | none => exact Or.inr ⟨_, rfl, rfl⟩
  | some a =>
    simp only [expect, bind, Except.bind, capOf, capAt, Option.bind_some]
    cases kp.sched.process pid with
    | none => exact Or.inr ⟨_, rfl, rfl⟩
    | some p =>
      simp only [Option.bind_some]
      cases p.capability a with
      | none => exact Or.inr ⟨_, rfl, rfl⟩
      | some c => exact Or.inl ⟨c, rfl, rfl⟩

theorem stageTurn_mono {t : Turn} {result : Fallible (Bool × Turn)}
    (h : stageTurn fuel t = some result) (hle : fuel ≤ fuel') :
    stageTurn fuel' t = some result ∧ turnCalls fuel' t = turnCalls fuel t := by
  unfold stageTurn turnCalls at *
  cases hrole : t.stage.role with
  | supervisor | transformer i | sink =>
    simp only [hrole] at h ⊢
    exact ⟨h, trivial⟩
  | producer =>
    simp only [hrole] at h ⊢
    rcases expect_capOf t.kp t.stage.pid "producer input" t.stage.input with
      ⟨input, hinput, hcap⟩ | ⟨e, he, hcap⟩
    · simp only [hinput, hcap] at h ⊢
      obtain ⟨drained, hdrained, rfl⟩ := Option.map_eq_some_iff.mp h
      obtain ⟨hmore, hcalls⟩ := drainReturns_mono hdrained hle
      rw [hmore, hdrained, hcalls]
      exact ⟨rfl, rfl⟩
    · simp only [he, hcap] at h ⊢
      exact ⟨h, trivial⟩

theorem step_mono {kp : KernelPipeline} {index : ℕ} {report : PipelineReport}
    {result : Fallible (Bool × KernelPipeline × PipelineReport)}
    (h : kp.step fuel index report = some result) (hle : fuel ≤ fuel') :
    kp.step fuel' index report = some result ∧ ∀ stage, kp.stages[index]? = some stage →
      turnCalls fuel' ⟨kp, stage, report⟩ = turnCalls fuel ⟨kp, stage, report⟩ := by
  unfold step at *
  cases hstage : kp.stages[index]? with
  | none =>
    simp only [hstage] at h ⊢
    exact ⟨h, fun _ hnone => by cases hnone⟩
  | some stage =>
    simp only [hstage] at h ⊢
    obtain ⟨result, hturn, rfl⟩ := Option.map_eq_some_iff.mp h
    obtain ⟨hmore, hcalls⟩ := stageTurn_mono hturn hle
    rw [hmore]
    refine ⟨rfl, fun stage' heq => ?_⟩
    rw [← Option.some.inj heq]
    exact hcalls

theorem runLoop_mono {processes streak : UInt64} {kp : KernelPipeline} {report : PipelineReport}
    {result : Fallible PipelineReport} (h : runLoop processes fuel streak kp report = some result)
    (hle : fuel ≤ fuel') : runLoop processes fuel' streak kp report = some result := by
  induction fuel generalizing fuel' streak kp report with
  | zero => cases h
  | succ fuel ih =>
    obtain ⟨fuel', rfl⟩ : ∃ n, fuel' = n + 1 := ⟨fuel' - 1, by omega⟩
    have hle' := Nat.le_of_succ_le_succ hle
    rw [runLoop] at h ⊢
    split at h
    · next hmore =>
      rw [if_pos hmore]
      cases hnext : kp.sched.scheduleNext with
      | mk turn sched =>
        cases turn with
        | none =>
          simp only [hnext] at h ⊢
          exact h
        | some pid =>
          simp only [hnext] at h ⊢
          cases hfind : kp.stages.findIdx? (fun s => s.pid = pid) with
          | none =>
            simp only [hfind] at h ⊢
            exact h
          | some index =>
            simp only [hfind] at h ⊢
            split at h
            · cases h
            · next e hstep =>
              rw [(step_mono hstep hle').1]
              exact h
            · next kp' report' hstep =>
              rw [(step_mono hstep hle').1]
              exact ih h hle'
            · next kp' report' hstep =>
              rw [(step_mono hstep hle').1]
              simp only at h ⊢
              split at h
              · next hlimit =>
                rw [if_pos hlimit]
                exact h
              · next hlimit =>
                rw [if_neg hlimit]
                exact ih h hle'
    · next hdone =>
      rw [if_neg hdone]
      exact h

end KernelPipeline

namespace PipelineReport

def countTurn (report : PipelineReport) : PipelineReport :=
  { report with stats.schedulerTurns := report.stats.schedulerTurns + 1 }

def countIdle (report : PipelineReport) : PipelineReport :=
  { report with stats.idleTurns := report.stats.idleTurns + 1 }

end PipelineReport

namespace KernelPipeline

/-- One turn of the loop of `run`: whether it did anything, what it leaves, and the calls it makes. -/
inductive TakesTurn (fuel : ℕ) (kp : KernelPipeline) (report : PipelineReport) :
    Bool → KernelPipeline → PipelineReport → List Call → Prop where
  | mk {pid : ProcessId} {sched : Scheduler} {index : ℕ} {stage : PipelineStage} {progressed : Bool}
      {kp' : KernelPipeline} {report' : PipelineReport}
      (scheduled : kp.sched.scheduleNext = (some pid, sched))
      (found : kp.stages.findIdx? (fun s => s.pid = pid) = some index)
      (member : kp.stages[index]? = some stage)
      (stepped : step fuel { kp with sched } index report.countTurn =
        some (.ok (progressed, kp', report'))) :
      TakesTurn fuel kp report progressed kp' report'
        (.scheduleNext :: turnCalls fuel ⟨{ kp with sched }, stage, report.countTurn⟩)

/-- The states between two turns of a run: the calls made so far, the streak of idle turns, the
pipeline, and the report. -/
inductive Between (config : PipelineConfig) :
    List Call → UInt64 → KernelPipeline → PipelineReport → Prop where
  | boot {kp : KernelPipeline} (booted : KernelPipeline.new config = .ok kp) :
      Between config (bootCalls config) 0 kp .new
  | worked {calls more : List Call} {streak : UInt64} {kp kp' : KernelPipeline}
      {report report' : PipelineReport} {fuel : ℕ} (before : Between config calls streak kp report)
      (unfinished : UInt64.ofNat report.results.length < kp.config.batches)
      (turn : TakesTurn fuel kp report true kp' report' more) :
      Between config (calls ++ more) 0 kp' report'
  | idled {calls more : List Call} {streak : UInt64} {kp kp' : KernelPipeline}
      {report report' : PipelineReport} {fuel : ℕ} (before : Between config calls streak kp report)
      (unfinished : UInt64.ofNat report.results.length < kp.config.batches)
      (turn : TakesTurn fuel kp report false kp' report' more)
      (patient : ¬UInt64.ofNat kp.stages.length < streak + 1) :
      Between config (calls ++ more) (streak + 1) kp' report'.countIdle

section TakesTurn
variable {fuel fuel' : ℕ} {kp kp₁ kp₂ : KernelPipeline} {report report₁ report₂ : PipelineReport}
  {progressed progressed₁ progressed₂ : Bool} {calls calls₁ calls₂ : List Call}

theorem TakesTurn.mono (h : TakesTurn fuel kp report progressed kp₁ report₁ calls)
    (hle : fuel ≤ fuel') : TakesTurn fuel' kp report progressed kp₁ report₁ calls := by
  obtain ⟨scheduled, found, member, stepped⟩ := h
  obtain ⟨hstep, hcalls⟩ := step_mono stepped hle
  rw [← hcalls _ member]
  exact .mk scheduled found member hstep

theorem TakesTurn.unique (h₁ : TakesTurn fuel kp report progressed₁ kp₁ report₁ calls₁)
    (h₂ : TakesTurn fuel kp report progressed₂ kp₂ report₂ calls₂) :
    progressed₁ = progressed₂ ∧ kp₁ = kp₂ ∧ report₁ = report₂ ∧ calls₁ = calls₂ := by
  obtain ⟨scheduled₁, found₁, member₁, stepped₁⟩ := h₁
  obtain ⟨scheduled₂, found₂, member₂, stepped₂⟩ := h₂
  rw [scheduled₁] at scheduled₂
  obtain ⟨hpid, rfl⟩ := Prod.mk.inj scheduled₂
  obtain rfl := Option.some.inj hpid
  rw [found₁] at found₂
  obtain rfl := Option.some.inj found₂
  rw [member₁] at member₂
  obtain rfl := Option.some.inj member₂
  rw [stepped₁] at stepped₂
  have hresult := Except.ok.inj (Option.some.inj stepped₂)
  obtain ⟨rfl, hrest⟩ := Prod.mk.inj hresult
  obtain ⟨rfl, rfl⟩ := Prod.mk.inj hrest
  exact ⟨rfl, rfl, rfl, rfl⟩

/-- The loop takes the turn and goes on. -/
theorem TakesTurn.runLoop (h : TakesTurn fuel kp report progressed kp₁ report₁ calls)
    (unfinished : UInt64.ofNat report.results.length < kp.config.batches) (processes streak : UInt64) :
    KernelPipeline.runLoop processes (fuel + 1) streak kp report =
      if progressed then KernelPipeline.runLoop processes fuel 0 kp₁ report₁
      else if processes < streak + 1 then
        some (.error (.err (.stalled report₁.countIdle.stats.schedulerTurns)))
      else KernelPipeline.runLoop processes fuel (streak + 1) kp₁ report₁.countIdle := by
  obtain ⟨scheduled, found, member, stepped⟩ := h
  change step fuel _ _ { report with stats.schedulerTurns := report.stats.schedulerTurns + 1 } = _
    at stepped
  rw [KernelPipeline.runLoop, if_pos unfinished]
  simp only [scheduled, found, stepped]
  cases progressed <;> rfl

end TakesTurn
end KernelPipeline

/-- The ready queue before turn `t`: round robin over the processes. -/
def rotation (n t : ℕ) : List ProcessId := ((List.range n).map pidAt).rotate t

theorem scheduleNext_rotation {sched : Scheduler} {n t : ℕ} (hn : 0 < n)
    (h : sched.readyQueue = rotation n t) :
    sched.scheduleNext = (some (pidAt (t % n)), { sched with readyQueue := rotation n (t + 1) }) := by
  have hlen : ((List.range n).map pidAt).length = n := by simp
  rw [Scheduler.scheduleNext]
  cases hq : sched.readyQueue with
  | nil =>
    have hzero := congrArg List.length (hq.symm.trans h)
    rw [rotation, List.length_rotate, hlen, List.length_nil] at hzero
    omega
  | cons id rest =>
    rw [hq] at h
    have hnext : rest ++ [id] = rotation n (t + 1) := by
      rw [rotation, ← List.rotate_rotate, ← rotation, ← h]
      simp
    have hid : id = pidAt (t % n) := by
      have hfirst : some id = (rotation n t)[0]? := by rw [← h]; rfl
      rw [rotation, List.getElem?_rotate (by omega), hlen, Nat.zero_add, List.getElem?_map,
        List.getElem?_range (Nat.mod_lt t hn), Option.map_some] at hfirst
      exact Option.some.inj hfirst
    rw [hid] at hnext ⊢
    simp only [hnext]

theorem Crewed.findIdx {config : PipelineConfig} {r : Carousel Token UInt64} {seats : List Seat}
    {stages : List PipelineStage} {sched : Scheduler} (h : Crewed config r seats stages sched)
    (hlen : seats.length < 2 ^ 64) {j : ℕ} (hj : j < seats.length) :
    stages.findIdx? (fun s => s.pid = pidAt j) = some j := by
  have hpid : ∀ i (hi : i < stages.length), stages[i].pid = pidAt i := by
    intro i hi
    have hi' : i < seats.length := h.length ▸ hi
    obtain ⟨stage, p, hstage, hpid, -⟩ := h.member i seats[i] (List.getElem?_eq_getElem hi')
    rw [List.getElem?_eq_getElem hi] at hstage
    rw [Option.some.inj hstage, hpid]
  rw [List.findIdx?_eq_some_iff_getElem]
  refine ⟨h.length ▸ hj, by simp [hpid], fun i hij => ?_⟩
  rw [hpid]
  simp only [decide_eq_true_eq]
  rw [pidAt_inj (by omega) (by omega)]
  omega

section Runs
variable {config : PipelineConfig} {calls : List Call} {streak : UInt64} {kp : KernelPipeline}
  {report : PipelineReport} {t idle : ℕ} {r : Carousel Token UInt64}

open KernelPipeline Carousel

theorem regionWork_commutes (config : PipelineConfig) :
    (regionWork config).Commutes Token.bytes (bytesWork config.seed) where
  fill _ _ := rfl
  stage _ _ := rfl
  retire _ := rfl
  result _ := rfl

def SoundBytes (config : PipelineConfig) (r : Carousel Bytes UInt64) : Prop :=
  Carousel.Sound (bytesWork config.seed) (fun x => x.length = config.regionSize)
    (fun b => referenceBytes config.seed (UInt64.ofNat b) config.regionSize 0) config.stages
    config.batches.toNat config.pool r

theorem SoundBytes.turn (h : SoundBytes config (r.map Token.bytes)) {seat : Seat}
    (hseat : seat ∈ seats config.stages) :
    SoundBytes config (Carousel.map Token.bytes
      (r.turn (regionWork config) config.stages config.batches.toNat seat).2) := by
  have hnext := Carousel.Sound.turn h (bytesWork_lawful config.seed config.regionSize) hseat
  rwa [turn_map (regionWork_commutes config)] at hnext

theorem SoundBytes.returns_le (h : SoundBytes config (r.map Token.bytes)) :
    r.returns.length ≤ config.pool := by
  have hcount := h.count
  rw [items, List.length_append, List.length_append] at hcount
  simp only [Carousel.map, List.length_map] at hcount
  omega

theorem Circulates.schedule (h : Circulates config kp r) (readyQueue : List ProcessId) :
    Circulates config { kp with sched := { kp.sched with readyQueue } } r :=
  ⟨h.sameConfig, h.stocked, h.queued, h.returned, h.crewed.length, h.crewed.member⟩

/-- After `t` turns, of which `idle` were idle, the pipeline is the ring `r`. -/
structure Underway (config : PipelineConfig) (calls : List Call) (kp : KernelPipeline)
    (report : PipelineReport) (t idle : ℕ) (r : Carousel Token UInt64) : Prop where
  ring : Circulates config kp r
  sound : SoundBytes config (r.map Token.bytes)
  budget : r.messages + remaining config.stages config.batches.toNat r ≤
    (config.stages + 3) * config.batches.toNat
  ready : kp.sched.readyQueue = rotation (config.stages + 3) t
  reported : Reported config report.results report.stats t idle r
  log : ∃ log, Plays .new calls log kp.system ∧ Minted config log r
  traced : config.trace = true → ∃ st, Chronicle config kp.channels kp.sched report.trace r st

namespace Underway

theorem inBounds (h : Underway config calls kp report t idle r) (hfits : config.Fits) :
    InBounds config r := ⟨hfits, h.sound.counted.of_map, h.budget⟩

theorem results_length (h : Underway config calls kp report t idle r) :
    report.results.length = r.results.length := by
  rw [h.reported.results, List.length_map]

theorem unfinished_iff (h : Underway config calls kp report t idle r) (hfits : config.Fits) :
    UInt64.ofNat report.results.length < kp.config.batches ↔
      r.results.length < config.batches.toNat := by
  have hb := h.inBounds hfits
  have hnext := hb.next_le
  have hdone := hb.done_le
  rw [PipelineConfig.Fits] at hfits
  rw [h.ring.sameConfig, h.results_length, UInt64.lt_iff_toNat_lt, UInt64.toNat_ofNat',
    Nat.mod_eq_of_lt (by omega)]

theorem countIdle (h : Underway config calls kp report t idle r) :
    Underway config calls kp report.countIdle t (idle + 1) r := by
  refine ⟨h.ring, h.sound, h.budget, h.ready, ⟨h.reported.results, ?_⟩, h.log, h.traced⟩
  change { report.stats with idleTurns := report.stats.idleTurns + 1 } = _
  rw [h.reported.stats, UInt64.ofNat_add idle]
  rfl

/-- A turn of the loop is the turn of the next seat. -/
theorem turn (h : Underway config calls kp report t idle r) (hfits : config.Fits) {fuel : ℕ}
    (hfuel : config.pool < fuel) :
    ∃ kp' report' more, TakesTurn fuel kp report (r.turn (regionWork config) config.stages
        config.batches.toNat (roundRobin config.stages t)).1 kp' report' more ∧
      Underway config (calls ++ more) kp' report' (t + 1) idle (r.turn (regionWork config)
        config.stages config.batches.toNat (roundRobin config.stages t)).2 := by
  have hb := h.inBounds hfits
  have hseats : t % (config.stages + 3) < (seats config.stages).length := by
    rw [length_seats]
    exact Nat.mod_lt _ (Nat.succ_pos _)
  have hlen : (seats config.stages).length < 2 ^ 64 := by
    rw [PipelineConfig.Fits] at hfits
    rw [length_seats]
    omega
  have hindex : (seats config.stages)[t % (config.stages + 3)]? =
      some (roundRobin config.stages t) := by
    rw [roundRobin, List.getElem?_eq_getElem hseats, Option.getD_some]
  have hscheduled := scheduleNext_rotation (Nat.succ_pos _) h.ready
  obtain ⟨stage, kp', report', hstage, hstep, hstepped⟩ :=
    (h.ring.schedule (rotation (config.stages + 3) (t + 1))).step hb report.countTurn hindex
      (lt_of_le_of_lt h.sound.returns_le hfuel)
  obtain ⟨log, hplays, hminted⟩ := h.log
  obtain ⟨events, hmore, hkeeps⟩ := hstepped.minted
  have hrotated : Plays kp.system [.scheduleNext] [] (KernelPipeline.system
      { kp with sched := { kp.sched with readyQueue := rotation (config.stages + 3) (t + 1) } }) := by
    refine Plays.single (.ok (.turn (some (pidAt (t % (config.stages + 3)))))) ?_ rfl
    simp only [System.step, KernelPipeline.system, hscheduled]
  refine ⟨kp', report', _, .mk hscheduled (h.ring.crewed.findIdx hlen hseats) hstage hstep,
    hstepped.ring, h.sound.turn (roundRobin_mem config.stages t),
    (messages_add_remaining_le (roundRobin_mem config.stages t)).trans h.budget, hstepped.ready,
    hstepped.reported (t + 1) idle ⟨h.reported.results, ?_⟩, ⟨_, hplays.append
      (hrotated.cons hmore), ?_⟩, fun htrace => ?_⟩
  · change { report.stats with schedulerTurns := report.stats.schedulerTurns + 1 } = _
    rw [h.reported.stats, UInt64.ofNat_add]
    rfl
  · exact hkeeps log hminted
  · obtain ⟨st, hst⟩ := h.traced htrace
    exact hstepped.traced htrace st ⟨hst.written, hst.chained, hst.waiting, hst.returned, hst.ticks⟩

theorem start (h : Booted config calls kp) :
    Underway config calls kp .new 0 0 (Carousel.start (bootTokens config)) := by
  have hvalid : ∀ x ∈ (bootTokens config).map Token.bytes, x.length = config.regionSize := by
    intro x hx
    obtain ⟨token, htoken, rfl⟩ := List.mem_map.mp hx
    obtain ⟨k, -, -, rfl⟩ := mem_bootTokens.mp htoken
    exact List.length_replicate
  have hpool : ((bootTokens config).map Token.bytes).length = config.pool := by simp [bootTokens]
  have hsound : Carousel.Sound (bytesWork config.seed) (fun x => x.length = config.regionSize)
      (fun b => referenceBytes config.seed (UInt64.ofNat b) config.regionSize 0) config.stages
      config.batches.toNat _ _ := sound_start hvalid
  rw [hpool] at hsound
  have hload : ∀ k, load config.stages
      (Carousel.start (bootTokens config) : Carousel Token UInt64).chan k = 0 := by
    intro k
    induction k with
    | zero => rfl
    | succ k ih => rw [load, ih]; rfl
  refine ⟨h.ring, hsound, ?_, ?_, ⟨rfl, ?_⟩, h.log, fun _ => ⟨_, h.chronicle⟩⟩
  · rw [remaining, hload]
    simp [Carousel.start]
  · rw [h.ready, rotation, List.rotate_zero]
  · rw [PipelineReport.new]
    simp [Carousel.start]

end Underway

/-- Between two turns the pipeline is the ring. -/
theorem KernelPipeline.Between.underway (hfits : config.Fits)
    (h : Between config calls streak kp report) :
    ∃ t idle r, Underway config calls kp report t idle r := by
  induction h with
  | boot booted =>
    obtain ⟨kp', hnew, hbooted⟩ := new_boots hfits (allocates_of_new booted)
    rw [booted] at hnew
    obtain rfl := Except.ok.inj hnew
    exact ⟨0, 0, _, Underway.start hbooted⟩
  | @worked _ _ _ _ _ _ _ fuel _ _ turn ih =>
    obtain ⟨t, idle, r, hunderway⟩ := ih
    obtain ⟨kp', report', more, htakes, hnext⟩ :=
      hunderway.turn hfits (Nat.lt_succ_of_le (Nat.le_max_left config.pool fuel))
    obtain ⟨-, rfl, rfl, rfl⟩ := (turn.mono (Nat.le_succ_of_le (Nat.le_max_right ..))).unique htakes
    exact ⟨t + 1, idle, _, hnext⟩
  | @idled _ _ _ _ _ _ _ fuel _ _ turn _ ih =>
    obtain ⟨t, idle, r, hunderway⟩ := ih
    obtain ⟨kp', report', more, htakes, hnext⟩ :=
      hunderway.turn hfits (Nat.lt_succ_of_le (Nat.le_max_left config.pool fuel))
    obtain ⟨-, rfl, rfl, rfl⟩ := (turn.mono (Nat.le_succ_of_le (Nat.le_max_right ..))).unique htakes
    exact ⟨t + 1, idle + 1, _, hnext.countIdle⟩

def Concludes (config : PipelineConfig) : Ending Token UInt64 → Fallible PipelineReport → Prop
  | .finished turns idle r, .ok report => ∃ calls streak kp, Between config calls streak kp report ∧
      Underway config calls kp report turns idle r
  | .stalled turns, .error (.err (.stalled reported)) => reported = UInt64.ofNat turns
  | _, _ => False

/-- A run of the kernel pipeline is a run of the ring. -/
theorem Underway.runLoop (hfits : config.Fits) {ending : Ending Token UInt64} (fuel : ℕ)
    {streak : ℕ} (h : Underway config calls kp report t idle r)
    (hbetween : Between config calls (UInt64.ofNat streak) kp report)
    (hstreak : streak ≤ config.stages + 3)
    (hspin : spin (regionWork config) config.stages config.batches.toNat (roundRobin config.stages)
      fuel t streak idle r = some ending) :
    ∃ result, KernelPipeline.runLoop (UInt64.ofNat (config.stages + 3)) (fuel + (config.pool + 1))
      (UInt64.ofNat streak) kp report = some result ∧ Concludes config ending result := by
  induction fuel generalizing calls kp r report t streak idle with
  | zero => cases hspin
  | succ fuel ih =>
    have hless := h.unfinished_iff hfits
    have hstages : kp.stages.length = config.stages + 3 := by
      rw [h.ring.crewed.length, length_seats]
    rw [spin] at hspin
    rw [Nat.succ_add]
    by_cases hunfinished : r.results.length < config.batches.toNat
    · rw [if_pos hunfinished] at hspin
      obtain ⟨kp', report', more, htakes, hnext⟩ :=
        h.turn hfits (by omega : config.pool < fuel + (config.pool + 1))
      rw [htakes.runLoop (hless.mpr hunfinished)]
      cases hturn : r.turn (regionWork config) config.stages config.batches.toNat
          (roundRobin config.stages t) with
      | mk progressed r' =>
        rw [hturn] at hspin hnext htakes
        cases progressed with
        | true =>
          exact ih hnext (hbetween.worked (hless.mpr hunfinished) htakes) (Nat.zero_le _) hspin
        | false =>
          have hsum : UInt64.ofNat streak + 1 = UInt64.ofNat (streak + 1) := by
            rw [UInt64.ofNat_add]
            rfl
          have hlimit : UInt64.ofNat (config.stages + 3) < UInt64.ofNat streak + 1 ↔
              config.stages + 3 < streak + 1 := by
            rw [PipelineConfig.Fits] at hfits
            rw [hsum, UInt64.lt_iff_toNat_lt, UInt64.toNat_ofNat', UInt64.toNat_ofNat',
              Nat.mod_eq_of_lt (by omega), Nat.mod_eq_of_lt (by omega)]
          simp only [Bool.false_eq_true, if_false] at hspin ⊢
          split at hspin
          · next hstalled =>
            rw [if_pos (hlimit.mpr hstalled)]
            refine ⟨_, rfl, ?_⟩
            rw [← Option.some.inj hspin]
            exact congrArg Stats.schedulerTurns hnext.countIdle.reported.stats
          · next hmore =>
            have hpatient := mt hlimit.mp hmore
            have hidled := hbetween.idled (hless.mpr hunfinished) htakes (hstages ▸ hpatient)
            rw [if_neg hpatient, hsum]
            rw [hsum] at hidled
            exact ih hnext.countIdle hidled (by omega) hspin
    · rw [if_neg hunfinished] at hspin
      rw [KernelPipeline.runLoop, if_neg (mt hless.mp hunfinished)]
      refine ⟨.ok report, rfl, ?_⟩
      rw [← Option.some.inj hspin]
      exact ⟨calls, _, kp, hbetween, h⟩

end Runs
end Muaddib
