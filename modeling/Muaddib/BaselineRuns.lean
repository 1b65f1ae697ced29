import Muaddib.Baselines
import Muaddib.PipelineOutcomes
import Muaddib.RingSchedules
import Muaddib.RingTimings

/-! # The baseline is the ring under its own schedule

The baseline's turn counter wraps, and with it the place in the round. Up to there its schedule is the
kernel pipeline's, and the two runs end alike. -/
namespace Muaddib
open RingPipelines KernelPipeline

def Kind.seat : Kind → Seat
  | .supervisor => .supervisor
  | .producer => .producer
  | .transformer i => .transformer i
  | .sink => .sink

def turnSchedule (stages t : ℕ) : Seat := roundRobin stages (t % 2 ^ 64)

def BaselineMessage.load (m : BaselineMessage) : UInt64 × Bytes := (m.batch, m.region)

def ringLoad (x : ℕ × Bytes) : UInt64 × Bytes := (UInt64.ofNat x.1, x.2)

namespace Baseline

/-- After `t` turns, of which `idle` were idle and the last `streak` too, the variables are the ring
`r`. -/
structure Mirrors (config : PipelineConfig) (b : Baseline) (t streak idle : ℕ)
    (r : Carousel Bytes UInt64) : Prop where
  sound : SoundBytes config r
  kinds : b.stages.map (fun x => x.kind.seat) = seats config.stages
  queued : b.chan.map (List.map BaselineMessage.load) =
    (List.range (config.stages + 1)).map fun k => (r.chan k).map ringLoad
  returned : b.returns.map BaselineMessage.region = r.returns
  pooled : b.pool = r.pool
  next : b.nextBatch = UInt64.ofNat r.next
  reported : Reported config b.report.results b.report.stats t idle r
  streak : b.idleStreak = UInt64.ofNat streak
  turn : b.turn = UInt64.ofNat t

section Drain
variable {stage : BaselineStage}

/-- Draining returns every region to the pool, and is progress if there was one. -/
theorem drainReturns_eq (returns : List BaselineMessage) (progressed : Bool)
    (stage : BaselineStage) (pool : List Bytes) :
    ∃ stage', drainReturns returns progressed stage pool =
      (progressed || !returns.isEmpty, stage', pool ++ returns.map BaselineMessage.region) ∧
      stage'.kind = stage.kind := by
  induction returns generalizing progressed stage pool with
  | nil => exact ⟨stage, by simp [drainReturns], rfl⟩
  | cons m returns ih =>
    obtain ⟨stage', hdrain, hkind⟩ := ih true (stage.receiveStamp m.stamp) (pool ++ [m.region])
    refine ⟨stage', ?_, hkind.trans (stage.receiveStamp_kind m.stamp)⟩
    rw [drainReturns, hdrain]
    simp

end Drain

section Queues
variable {config : PipelineConfig} {b : Baseline} {t streak idle k : ℕ}
  {r : Carousel Bytes UInt64}

theorem map_range_update {α : Type} (f : ℕ → α) (n k : ℕ) (v : α) :
    ((List.range n).map f).set k v = (List.range n).map (Function.update f k v) := by
  apply List.ext_getElem (by simp)
  intro i hi _
  rw [List.length_set, List.length_map, List.length_range] at hi
  rw [List.getElem_set, List.getElem_map, List.getElem_map, List.getElem_range,
    Function.update_apply]
  simp only [eq_comm]

theorem queueAt_eq {ring : ℕ → List (ℕ × Bytes)} (hchan : b.chan.map (List.map BaselineMessage.load)
      = (List.range (config.stages + 1)).map fun k => (ring k).map ringLoad)
    (hk : k ≤ config.stages) :
    ∃ queue, b.queueAt k = .ok queue ∧ queue.map BaselineMessage.load = (ring k).map ringLoad := by
  have hget := congrArg (·[k]?) hchan
  simp only [List.getElem?_map, List.getElem?_range (Nat.lt_succ_of_le hk), Option.map_some,
    Option.map_eq_some_iff] at hget
  obtain ⟨queue, hqueue, hload⟩ := hget
  exact ⟨queue, by rw [queueAt, hqueue]; rfl, hload⟩

theorem queued_set {chan : List (List BaselineMessage)} {ring : ℕ → List (ℕ × Bytes)} {n : ℕ}
    (h : chan.map (List.map BaselineMessage.load) = (List.range n).map fun k => (ring k).map ringLoad)
    {queue : List BaselineMessage} {items : List (ℕ × Bytes)}
    (hqueue : queue.map BaselineMessage.load = items.map ringLoad) (k : ℕ) :
    (chan.set k queue).map (List.map BaselineMessage.load) =
      (List.range n).map fun j => (Function.update ring k items j).map ringLoad := by
  rw [List.map_set, h, hqueue, map_range_update]
  congr 1
  funext j
  rw [Function.update_apply, Function.update_apply]
  split <;> rfl

/-- `chan[i].push_back(m)` does to a queue what the ring does. -/
theorem pushBack_eq {ring : ℕ → List (ℕ × Bytes)} (hchan : b.chan.map (List.map BaselineMessage.load)
      = (List.range (config.stages + 1)).map fun k => (ring k).map ringLoad)
    (hk : k ≤ config.stages) {m : BaselineMessage} {x : ℕ × Bytes} (hx : m.load = ringLoad x) :
    ∃ chan, b.pushBack k m = .ok { b with chan } ∧ chan.map (List.map BaselineMessage.load) =
      (List.range (config.stages + 1)).map fun j =>
        (Function.update ring k (ring k ++ [x]) j).map ringLoad := by
  obtain ⟨queue, hqueue, hload⟩ := queueAt_eq hchan hk
  refine ⟨b.chan.set k (queue ++ [m]), by rw [pushBack, hqueue]; rfl, queued_set hchan ?_ k⟩
  rw [List.map_append, List.map_append, hload, List.map_singleton, List.map_singleton, hx]

end Queues

section Turns
variable {config : PipelineConfig} {b : Baseline} {t streak idle : ℕ} {stage : BaselineStage}
  {r : Carousel Bytes UInt64}

theorem Mirrors.transformNext (h : Mirrors config b t streak idle r) {i : ℕ}
    (hi : i < config.stages) (stage : BaselineStage) :
    ∃ stage' b', Baseline.transformNext config i b stage = .ok ((r.turn (bytesWork config.seed)
        config.stages config.batches.toNat (.transformer i)).1, stage', b') ∧
      stage'.kind = stage.kind ∧ Mirrors config b' t streak idle (r.turn (bytesWork config.seed)
        config.stages config.batches.toNat (.transformer i)).2 := by
  have hseat : Seat.transformer i ∈ seats config.stages := by simpa [seats] using hi
  have hsound := Carousel.Sound.turn h.sound (bytesWork_lawful config.seed config.regionSize) hseat
  obtain ⟨queue, hqueue, hload⟩ := queueAt_eq h.queued hi.le
  rw [Baseline.transformNext, hqueue]
  cases hc : r.chan i with
  | nil =>
    rw [hc, List.map_nil, List.map_eq_nil_iff] at hload
    subst hload
    refine ⟨stage, b, ?_, rfl, ?_⟩
    · simp only [Carousel.turn, hc]
      rfl
    · simpa only [Carousel.turn, hc] using h
  | cons x items =>
    obtain ⟨n, bytes⟩ := x
    rw [hc, List.map_cons] at hload
    obtain ⟨m, queue, rfl, hm, hrest⟩ := List.map_eq_cons_iff.mp hload
    simp only [Carousel.turn, hc] at hsound ⊢
    obtain ⟨hbatch, hregion⟩ := Prod.mk.inj hm
    let stage' := stage.receiveStamp m.stamp
    let b' := ({ b with chan := b.chan.set i queue }).countBytes config
    obtain ⟨chan, hpush, hchan⟩ := pushBack_eq (b := b') (queued_set h.queued hrest i) hi
      (m := { m with region := transform i m.region, stamp := stage'.sendStamp.1 })
      (x := (n, transform i bytes)) (Prod.ext hbatch (congrArg (transform i) hregion))
    rw [Function.update_of_ne (Nat.succ_ne_self i)] at hchan
    refine ⟨stage'.sendStamp.2, { b' with chan }.countMessage, ?_, ?_, ?_⟩
    · change ((b'.pushBack (i + 1) _) >>= fun b => _) = _
      rw [hpush]
      rfl
    · rw [BaselineStage.sendStamp_kind, BaselineStage.receiveStamp_kind]
    · exact ⟨hsound, h.kinds, hchan, h.returned, h.pooled, h.next,
        h.reported.message [] rfl (List.append_nil _).symm (List.append_nil _).symm, h.streak, h.turn⟩

theorem Mirrors.finishNext (h : Mirrors config b t streak idle r) (stage : BaselineStage) :
    ∃ stage' b', Baseline.finishNext config b stage = .ok ((r.turn (bytesWork config.seed)
        config.stages config.batches.toNat .sink).1, stage', b') ∧
      stage'.kind = stage.kind ∧ Mirrors config b' t streak idle (r.turn (bytesWork config.seed)
        config.stages config.batches.toNat .sink).2 := by
  have hseat : Seat.sink ∈ seats config.stages := by simp [seats]
  have hsound := Carousel.Sound.turn h.sound (bytesWork_lawful config.seed config.regionSize) hseat
  obtain ⟨queue, hqueue, hload⟩ := queueAt_eq h.queued le_rfl
  rw [Baseline.finishNext, hqueue]
  cases hc : r.chan config.stages with
  | nil =>
    rw [hc, List.map_nil, List.map_eq_nil_iff] at hload
    subst hload
    refine ⟨stage, b, ?_, rfl, ?_⟩
    · simp only [Carousel.turn, hc]
      rfl
    · simpa only [Carousel.turn, hc] using h
  | cons x items =>
    obtain ⟨n, bytes⟩ := x
    rw [hc, List.map_cons] at hload
    obtain ⟨m, queue, rfl, hm, hrest⟩ := List.map_eq_cons_iff.mp hload
    simp only [Carousel.turn, hc] at hsound ⊢
    obtain ⟨hbatch, hregion⟩ : m.batch = UInt64.ofNat n ∧ m.region = bytes := Prod.mk.inj hm
    refine ⟨_, _, rfl, ?_, ⟨hsound, h.kinds, queued_set h.queued hrest config.stages, ?_, h.pooled,
      h.next, ?_, h.streak, h.turn⟩⟩
    · rw [BaselineStage.sendStamp_kind, BaselineStage.receiveStamp_kind]
    · change (b.returns ++ [_]).map BaselineMessage.region = r.returns ++ [bytes]
      rw [List.map_append, h.returned, List.map_singleton, hregion]
    · refine h.reported.message [(n, checksum bytes)] rfl rfl ?_
      rw [List.map_singleton, ← hbatch, ← hregion]
      rfl

theorem Mirrors.produce (h : Mirrors config b t streak idle r) (stage : BaselineStage) :
    ∃ stage' b', Baseline.produce config b stage = .ok ((r.turn (bytesWork config.seed)
        config.stages config.batches.toNat .producer).1, stage', b') ∧
      stage'.kind = stage.kind ∧ Mirrors config b' t streak idle (r.turn (bytesWork config.seed)
        config.stages config.batches.toNat .producer).2 := by
  have hseat : Seat.producer ∈ seats config.stages := by simp [seats]
  have hsound := Carousel.Sound.turn h.sound (bytesWork_lawful config.seed config.regionSize) hseat
  obtain ⟨stage₁, hdrain, hkind⟩ := drainReturns_eq b.returns false stage b.pool
  rw [h.pooled, h.returned] at hdrain
  have hnext : b.nextBatch < config.batches ↔ r.next < config.batches.toNat := by
    have hle := h.sound.next_le
    rw [UInt64.lt_iff_toNat_lt, h.next, UInt64.toNat_ofNat',
      Nat.mod_eq_of_lt (lt_of_le_of_lt hle config.batches.toNat_lt)]
  have hempty : b.returns.isEmpty = r.returns.isEmpty := by
    rw [← h.returned, List.isEmpty_map]
  rw [Baseline.produce, h.pooled, hdrain, hempty]
  by_cases hmore : r.next < config.batches.toNat
  · cases hp : r.pool ++ r.returns with
    | nil =>
      simp only [Carousel.turn, if_pos hmore, if_pos (hnext.mpr hmore), hp] at hsound ⊢
      obtain ⟨hpool, hreturns⟩ := List.append_eq_nil_iff.mp hp
      rw [hreturns]
      exact ⟨stage₁, _, rfl, hkind, ⟨h.sound, h.kinds, h.queued, hreturns.symm, hpool.symm, h.next,
        h.reported, h.streak, h.turn⟩⟩
    | cons bytes pool =>
      simp only [Carousel.turn, if_pos hmore, if_pos (hnext.mpr hmore), hp] at hsound ⊢
      let b' := ({ b with returns := [], pool }).countBytes config
      obtain ⟨chan, hpush, hchan⟩ := pushBack_eq (b := b') (k := 0) h.queued (Nat.zero_le _)
        (m := ⟨b.nextBatch, fillBatch config.seed b.nextBatch bytes, stage₁.sendStamp.1⟩)
        (x := (r.next, fillBatch config.seed (UInt64.ofNat r.next) bytes)) (by rw [h.next]; rfl)
      refine ⟨stage₁.sendStamp.2,
        { ({ b' with chan }.countMessage) with nextBatch := b.nextBatch + 1 }, ?_, ?_, ?_⟩
      · change (b'.pushBack 0 ⟨b.nextBatch, fillBatch config.seed b.nextBatch bytes,
          stage₁.sendStamp.1⟩ >>= fun b => _) = _
        rw [hpush]
        rfl
      · rw [BaselineStage.sendStamp_kind, hkind]
      · refine ⟨hsound, h.kinds, hchan, rfl, rfl, ?_, h.reported.message [] rfl
          (List.append_nil _).symm (List.append_nil _).symm, h.streak, h.turn⟩
        change b.nextBatch + 1 = UInt64.ofNat (r.next + 1)
        rw [h.next, UInt64.ofNat_add]
        rfl
  · simp only [Carousel.turn, if_neg hmore, if_neg (mt hnext.mp hmore)] at hsound ⊢
    exact ⟨stage₁, _, rfl, hkind, ⟨hsound, h.kinds, h.queued, rfl, rfl, h.next,
      ⟨h.reported.results, h.reported.stats⟩, h.streak, h.turn⟩⟩

theorem Mirrors.stageTurn (h : Mirrors config b t streak idle r)
    (hseat : stage.kind.seat ∈ seats config.stages) :
    ∃ stage' b', Baseline.stageTurn config b stage = .ok ((r.turn (bytesWork config.seed)
        config.stages config.batches.toNat stage.kind.seat).1, stage', b') ∧
      stage'.kind = stage.kind ∧ Mirrors config b' t streak idle (r.turn (bytesWork config.seed)
        config.stages config.batches.toNat stage.kind.seat).2 := by
  cases hkind : stage.kind with
  | supervisor => exact ⟨stage, b, by rw [Baseline.stageTurn, hkind]; rfl, hkind, h⟩
  | transformer i =>
    have hi : i < config.stages := by simpa [hkind, seats, Kind.seat] using hseat
    simpa only [Baseline.stageTurn, hkind, Kind.seat] using h.transformNext hi stage
  | sink => simpa only [Baseline.stageTurn, hkind, Kind.seat] using h.finishNext stage
  | producer => simpa only [Baseline.stageTurn, hkind, Kind.seat] using h.produce stage

end Turns

section Runs
variable {config : PipelineConfig} {b : Baseline} {t streak idle : ℕ} {r : Carousel Bytes UInt64}

theorem Mirrors.countTurn (h : Mirrors config b t streak idle r) :
    Mirrors config b.countTurn (t + 1) streak idle r := by
  refine ⟨h.sound, h.kinds, h.queued, h.returned, h.pooled, h.next, ⟨h.reported.results, ?_⟩,
    h.streak, ?_⟩
  · change { b.report.stats with schedulerTurns := b.report.stats.schedulerTurns + 1 } = _
    rw [h.reported.stats, UInt64.ofNat_add t]
    rfl
  · change b.turn + 1 = _
    rw [h.turn, UInt64.ofNat_add]
    rfl

theorem Mirrors.countIdle (h : Mirrors config b t streak idle r) :
    Mirrors config b.countIdle t (streak + 1) (idle + 1) r := by
  refine ⟨h.sound, h.kinds, h.queued, h.returned, h.pooled, h.next, ⟨h.reported.results, ?_⟩, ?_,
    h.turn⟩
  · change { b.report.stats with idleTurns := b.report.stats.idleTurns + 1 } = _
    rw [h.reported.stats, UInt64.ofNat_add idle]
    rfl
  · change b.idleStreak + 1 = _
    rw [h.streak, UInt64.ofNat_add]
    rfl

theorem turnSchedule_eq (stages t : ℕ) :
    (seats stages)[t % 2 ^ 64 % (stages + 3)]? = some (turnSchedule stages t) := by
  have hlt : t % 2 ^ 64 % (stages + 3) < (seats stages).length := by
    rw [length_seats]
    exact Nat.mod_lt _ (Nat.succ_pos _)
  rw [turnSchedule, roundRobin, List.getElem?_eq_getElem hlt, Option.getD_some]

theorem Mirrors.scheduled (h : Mirrors config b t streak idle r) (hfits : config.Fits) :
    ∃ stage, b.stages[(b.turn % UInt64.ofNat (config.stages + 3)).toNat]? = some stage ∧
      stage.kind.seat = turnSchedule config.stages t ∧
      (seats config.stages)[(b.turn % UInt64.ofNat (config.stages + 3)).toNat]? =
        some (turnSchedule config.stages t) := by
  have hindex : (b.turn % UInt64.ofNat (config.stages + 3)).toNat =
      t % 2 ^ 64 % (config.stages + 3) := by
    rw [PipelineConfig.Fits] at hfits
    rw [h.turn, UInt64.toNat_mod, UInt64.toNat_ofNat', UInt64.toNat_ofNat',
      Nat.mod_eq_of_lt (by omega : config.stages + 3 < 2 ^ 64)]
  have hseat := congrArg (·[t % 2 ^ 64 % (config.stages + 3)]?) h.kinds
  simp only [List.getElem?_map, turnSchedule_eq, Option.map_eq_some_iff] at hseat
  obtain ⟨stage, hstage, hkind⟩ := hseat
  exact ⟨stage, by rw [hindex, hstage], hkind, by rw [hindex, turnSchedule_eq]⟩

theorem Mirrors.setStage (h : Mirrors config b t streak idle r) {index : ℕ} {stage : BaselineStage}
    (hseat : (seats config.stages)[index]? = some stage.kind.seat) :
    Mirrors config { b with stages := b.stages.set index stage } t streak idle r := by
  refine ⟨h.sound, ?_, h.queued, h.returned, h.pooled, h.next, h.reported, h.streak, h.turn⟩
  rw [List.map_set, h.kinds]
  apply List.ext_getElem?
  intro i
  rw [List.getElem?_set]
  split
  · next heq =>
    subst heq
    rw [if_pos (List.getElem?_eq_some_iff.mp hseat).1, hseat]
  · rfl

def Concludes (config : PipelineConfig) : Ending Bytes UInt64 → Fallible BaselineReport → Prop
  | .finished turns idle r, .ok report => Reported config report.results report.stats turns idle r
  | .stalled turns, .error (.err (.stalled reported)) => reported = UInt64.ofNat turns
  | _, _ => False

/-- A run of the baseline is a run of the ring. -/
theorem Mirrors.runLoop (hfits : config.Fits) {ending : Ending Bytes UInt64} (fuel : ℕ)
    (h : Mirrors config b t streak idle r) (hstreak : streak ≤ config.stages + 3)
    (hspin : spin (bytesWork config.seed) config.stages config.batches.toNat
      (turnSchedule config.stages) fuel t streak idle r = some ending) :
    ∃ result, Baseline.runLoop config (UInt64.ofNat (config.stages + 3)) fuel b = some result ∧
      Concludes config ending result := by
  induction fuel generalizing b r t streak idle with
  | zero => cases hspin
  | succ fuel ih =>
    have hless : UInt64.ofNat b.report.results.length < config.batches ↔
        r.results.length < config.batches.toNat := by
      have hdone := h.sound.done_le.trans h.sound.next_le
      rw [h.reported.results, List.length_map, UInt64.lt_iff_toNat_lt, UInt64.toNat_ofNat',
        Nat.mod_eq_of_lt (lt_of_le_of_lt hdone config.batches.toNat_lt)]
    rw [spin] at hspin
    rw [Baseline.runLoop]
    by_cases hunfinished : r.results.length < config.batches.toNat
    · rw [if_pos hunfinished] at hspin
      rw [if_pos (hless.mpr hunfinished)]
      obtain ⟨stage, hstage, hseat, hindex⟩ := h.scheduled hfits
      have hmem : stage.kind.seat ∈ seats config.stages := hseat ▸ roundRobin_mem config.stages _
      obtain ⟨stage', b', hturn, hkind, hnext⟩ := h.countTurn.stageTurn hmem
      rw [← hseat, ← hkind] at hindex
      have hset := hnext.setStage hindex
      simp only [hstage, hturn]
      rw [hseat] at hset ⊢
      cases hstep : r.turn (bytesWork config.seed) config.stages config.batches.toNat
          (turnSchedule config.stages t) with
      | mk progressed r' =>
        rw [hstep] at hspin hset
        cases progressed with
        | true => exact ih ⟨hset.sound, hset.kinds, hset.queued, hset.returned, hset.pooled, hset.next,
            hset.reported, rfl, hset.turn⟩ (Nat.zero_le _) hspin
        | false =>
          have hidle := hset.countIdle
          have hlimit : UInt64.ofNat (config.stages + 3) < UInt64.ofNat (streak + 1) ↔
              config.stages + 3 < streak + 1 := by
            rw [PipelineConfig.Fits] at hfits
            rw [UInt64.lt_iff_toNat_lt, UInt64.toNat_ofNat', UInt64.toNat_ofNat',
              Nat.mod_eq_of_lt (by omega), Nat.mod_eq_of_lt (by omega)]
          simp only [Bool.false_eq_true, if_false] at hspin ⊢
          rw [hidle.streak]
          split at hspin
          · next hstalled =>
            rw [if_pos (hlimit.mpr hstalled)]
            refine ⟨_, rfl, ?_⟩
            rw [← Option.some.inj hspin]
            exact congrArg Stats.schedulerTurns hidle.reported.stats
          · next hmore =>
            rw [if_neg (mt hlimit.mp hmore)]
            exact ih hidle (by omega) hspin
    · rw [if_neg hunfinished] at hspin
      rw [if_neg (mt hless.mp hunfinished)]
      refine ⟨.ok b.report, rfl, ?_⟩
      rw [← Option.some.inj hspin]
      exact h.reported

def startRing (config : PipelineConfig) : Carousel Bytes UInt64 :=
  Carousel.start (List.replicate config.pool (List.replicate config.regionSize 0))

theorem bootRing_bytes (config : PipelineConfig) :
    (bootRing config).map Token.bytes = startRing config := by
  have hpool : (bootTokens config).map Token.bytes =
      List.replicate config.pool (List.replicate config.regionSize 0) := by
    refine List.eq_replicate_iff.mpr ⟨by simp [bootTokens], fun bytes hbytes => ?_⟩
    obtain ⟨token, htoken, rfl⟩ := List.mem_map.mp hbytes
    obtain ⟨k, -, -, rfl⟩ := mem_bootTokens.mp htoken
    rfl
  rw [bootRing, startRing, ← hpool]
  rfl

theorem start_kinds (config : PipelineConfig) (clocks : Bool) (pool : List Bytes) :
    (Baseline.start config clocks pool).stages.map (fun x => x.kind.seat) = seats config.stages := by
  have hkinds : ((kinds config).zipIdx.map Prod.fst).map Kind.seat = (kinds config).map Kind.seat := by
    rw [List.zipIdx_map_fst]
  rw [List.map_map] at hkinds
  simp only [Baseline.start, List.map_map]
  refine hkinds.trans ?_
  simp [kinds, seats, Kind.seat, Function.comp_def]

theorem mirrors_start (config : PipelineConfig) (clocks : Bool) :
    Mirrors config (Baseline.start config clocks
      (List.replicate config.pool (List.replicate config.regionSize 0))) 0 0 0 (startRing config) := by
  have hvalid : ∀ x ∈ List.replicate config.pool (List.replicate config.regionSize (0 : UInt8)),
      x.length = config.regionSize := by
    intro x hx
    rw [List.eq_of_mem_replicate hx, List.length_replicate]
  have hsound : Carousel.Sound (bytesWork config.seed) (fun x => x.length = config.regionSize)
      (fun b => referenceBytes config.seed (UInt64.ofNat b) config.regionSize 0) config.stages
      config.batches.toNat _ (startRing config) := Carousel.sound_start hvalid
  rw [List.length_replicate] at hsound
  refine ⟨hsound, start_kinds config clocks _, ?_, rfl, rfl, rfl, ⟨rfl, ?_⟩, rfl, rfl⟩
  · simp [Baseline.start, startRing, Carousel.start, List.map_const']
  · simp [Baseline.start, startRing, Carousel.start]

theorem runLoop_mono {processes : UInt64} {result : Fallible BaselineReport} {fuel fuel' : ℕ}
    (h : Baseline.runLoop config processes fuel b = some result) (hle : fuel ≤ fuel') :
    Baseline.runLoop config processes fuel' b = some result := by
  induction fuel generalizing b fuel' with
  | zero => cases h
  | succ fuel ih =>
    obtain ⟨fuel', rfl⟩ := Nat.exists_eq_add_of_le' (Nat.one_le_of_lt (Nat.lt_of_succ_le hle))
    have hle : fuel ≤ fuel' := Nat.le_of_succ_le_succ hle
    rw [Baseline.runLoop] at h ⊢
    split at h
    · next hunfinished =>
      rw [if_pos hunfinished]
      simp only at h ⊢
      cases hstage : b.stages[(b.turn % processes).toNat]? with
      | none =>
        rw [hstage] at h
        exact h
      | some stage =>
        rw [hstage] at h
        simp only at h ⊢
        cases hturn : stageTurn config b.countTurn stage with
        | error e =>
          rw [hturn] at h
          exact h
        | ok next =>
          obtain ⟨progressed, stage', b'⟩ := next
          rw [hturn] at h
          simp only at h ⊢
          cases progressed with
          | true => exact ih h hle
          | false =>
            simp only [Bool.false_eq_true, if_false] at h ⊢
            split at h
            · next hstalled =>
              rw [if_pos hstalled]
              exact h
            · next hpatient =>
              rw [if_neg hpatient]
              exact ih h hle
    · next hfinished =>
      rw [if_neg hfinished]
      exact h

end Runs
end Baseline
end Muaddib
