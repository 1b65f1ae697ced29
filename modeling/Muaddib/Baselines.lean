import Muaddib.KernelPipelines

/-! # The baseline: the same pipeline with ambient authority

No kernel, no capabilities: channels are plain queues that any stage can touch, and regions are moved
by hand. Clocks are optional. The loop that the code does not bound takes fuel. -/
namespace Muaddib

structure BaselineReport where
  results : List BatchResult
  stats : Stats

inductive Kind where
  | supervisor
  | producer
  | transformer (stage : ℕ)
  | sink
  deriving DecidableEq, Repr

structure BaselineMessage where
  batch : UInt64
  region : Bytes
  /-- Carried only when clocks are on. -/
  stamp : Option (Stamp ℕ)

structure BaselineStage where
  kind : Kind
  clock : Option (EventClock ℕ)

namespace BaselineStage

def sendStamp (stage : BaselineStage) : Option (Stamp ℕ) × BaselineStage :=
  match stage.clock with
  | none => (none, stage)
  | some clock =>
    let (stamp, clock) := clock.sendEvent
    (some stamp, { stage with clock := some clock })

def receiveStamp (stage : BaselineStage) (sent : Option (Stamp ℕ)) : BaselineStage :=
  match stage.clock, sent with
  | some clock, some sent => { stage with clock := some (clock.receiveEvent sent).2 }
  | _, _ => stage

@[simp] theorem sendStamp_kind (stage : BaselineStage) : stage.sendStamp.2.kind = stage.kind := by
  rw [sendStamp]
  split <;> rfl

@[simp] theorem receiveStamp_kind (stage : BaselineStage) (sent : Option (Stamp ℕ)) :
    (stage.receiveStamp sent).kind = stage.kind := by
  obtain ⟨kind, clock⟩ := stage
  cases clock <;> cases sent <;> rfl

end BaselineStage

structure Baseline where
  report : BaselineReport
  stages : List BaselineStage
  /-- `chan[i]` feeds transformer `i`; `chan[stages]` feeds the sink. -/
  chan : List (List BaselineMessage)
  returns : List BaselineMessage
  pool : List Bytes
  nextBatch : UInt64
  idleStreak : UInt64
  turn : UInt64

namespace Baseline
open KernelPipeline (Fallible panic expect)

/-- Same order the kernel pipeline's scheduler round-robins in. -/
def kinds (config : PipelineConfig) : List Kind :=
  .supervisor :: .sink :: ((List.range config.stages).reverse.map .transformer ++ [.producer])

/-- `vec![0; config.region_size]` for every region of the pool. -/
def newPool (config : PipelineConfig) : Fallible (List Bytes) :=
  if config.Allocates then .ok (List.replicate config.pool (List.replicate config.regionSize 0))
  else KernelPipeline.panic "capacity overflow"

def start (config : PipelineConfig) (clocks : Bool) (pool : List Bytes) : Baseline where
  report := ⟨[], ⟨0, 0, 0, 0⟩⟩
  stages := (kinds config).zipIdx.map fun (kind, i) => ⟨kind, if clocks then some (.new i) else none⟩
  chan := List.replicate (config.stages + 1) []
  returns := []
  pool := pool
  nextBatch := 0
  idleStreak := 0
  turn := 0

def countTurn (b : Baseline) : Baseline :=
  { b with report.stats.schedulerTurns := b.report.stats.schedulerTurns + 1, turn := b.turn + 1 }

def countIdle (b : Baseline) : Baseline :=
  { b with report.stats.idleTurns := b.report.stats.idleTurns + 1, idleStreak := b.idleStreak + 1 }

def countBytes (b : Baseline) (config : PipelineConfig) : Baseline :=
  { b with report.stats.bytesProcessed :=
      b.report.stats.bytesProcessed + UInt64.ofNat config.regionSize }

def countMessage (b : Baseline) : Baseline :=
  { b with report.stats.messages := b.report.stats.messages + 1 }

/-- `chan[i]`. -/
def queueAt (b : Baseline) (i : ℕ) : Fallible (List BaselineMessage) :=
  expect "index out of bounds" b.chan[i]?

/-- `chan[i].push_back(m)`. -/
def pushBack (b : Baseline) (i : ℕ) (m : BaselineMessage) : Fallible Baseline := do
  let queue ← b.queueAt i
  return { b with chan := b.chan.set i (queue ++ [m]) }

/-- The producer's `while let` loop: it takes back every returned region. -/
def drainReturns : List BaselineMessage → Bool → BaselineStage → List Bytes →
    Bool × BaselineStage × List Bytes
  | [], progressed, stage, pool => (progressed, stage, pool)
  | m :: returns, _, stage, pool =>
    drainReturns returns true (stage.receiveStamp m.stamp) (pool ++ [m.region])

def produce (config : PipelineConfig) (b : Baseline) (stage : BaselineStage) :
    Fallible (Bool × BaselineStage × Baseline) :=
  let (progressed, stage, pool) := drainReturns b.returns false stage b.pool
  let b := { b with returns := [], pool }
  if b.nextBatch < config.batches then
    match b.pool with
    | [] => .ok (progressed, stage, b)
    | region :: pool => do
      let region := fillBatch config.seed b.nextBatch region
      let b := ({ b with pool }).countBytes config
      let (stamp, stage) := stage.sendStamp
      let b ← b.pushBack 0 ⟨b.nextBatch, region, stamp⟩
      return (true, stage, { b.countMessage with nextBatch := b.nextBatch + 1 })
  else .ok (progressed, stage, b)

def transformNext (config : PipelineConfig) (i : ℕ) (b : Baseline) (stage : BaselineStage) :
    Fallible (Bool × BaselineStage × Baseline) := do
  match ← b.queueAt i with
  | [] => return (false, stage, b)
  | m :: queue =>
    let b := { b with chan := b.chan.set i queue }
    let stage := stage.receiveStamp m.stamp
    let region := transform i m.region
    let b := b.countBytes config
    let (stamp, stage) := stage.sendStamp
    let b ← b.pushBack (i + 1) { m with region, stamp }
    return (true, stage, b.countMessage)

def finishNext (config : PipelineConfig) (b : Baseline) (stage : BaselineStage) :
    Fallible (Bool × BaselineStage × Baseline) := do
  match ← b.queueAt config.stages with
  | [] => return (false, stage, b)
  | m :: queue =>
    let b := { b with chan := b.chan.set config.stages queue }
    let stage := stage.receiveStamp m.stamp
    let b := ({ b with report.results :=
      b.report.results ++ [BatchResult.mk m.batch (checksum m.region)] }).countBytes config
    let (stamp, stage) := stage.sendStamp
    let b := { b with returns := b.returns ++ [{ m with stamp }] }
    return (true, stage, b.countMessage)

/-- The `match` on the kind of the stage. -/
def stageTurn (config : PipelineConfig) (b : Baseline) (stage : BaselineStage) :
    Fallible (Bool × BaselineStage × Baseline) :=
  match stage.kind with
  | .supervisor => .ok (false, stage, b)
  | .producer => produce config b stage
  | .transformer i => transformNext config i b stage
  | .sink => finishNext config b stage

/-- The `while` loop; the turn counter is a `usize` of its own. -/
def runLoop (config : PipelineConfig) (processes : UInt64) : ℕ → Baseline →
    Option (Fallible BaselineReport)
  | 0, _ => none
  | fuel + 1, b =>
    if UInt64.ofNat b.report.results.length < config.batches then
      let index := (b.turn % processes).toNat
      match b.stages[index]? with
      | none => some (panic "index out of bounds")
      | some stage =>
        match stageTurn config b.countTurn stage with
        | .error e => some (.error e)
        | .ok (progressed, stage, b) =>
          let b := { b with stages := b.stages.set index stage }
          if progressed then runLoop config processes fuel { b with idleStreak := 0 }
          else
            let b := b.countIdle
            if processes < b.idleStreak then
              some (.error (.err (.stalled b.report.stats.schedulerTurns)))
            else runLoop config processes fuel b
    else some (.ok b.report)

end Baseline

def runBaseline (fuel : ℕ) (config : PipelineConfig) (clocks : Bool) :
    Option (KernelPipeline.Fallible BaselineReport) :=
  match Baseline.newPool config with
  | .error e => some (.error e)
  | .ok pool =>
    let b := Baseline.start config clocks pool
    Baseline.runLoop config (UInt64.ofNat b.stages.length) fuel b

end Muaddib
