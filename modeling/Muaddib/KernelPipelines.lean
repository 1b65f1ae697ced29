import Muaddib.Channels
import Muaddib.PipelineData
import Muaddib.Schedulers

/-! # The integration pipeline, built on the kernel

A supervisor spawns a sink, the transformers and a producer with least-privilege views of the
channels, and a pool of regions circulates around the ring by moves. An error or a panic ends the
run; the loops that the code does not bound take fuel. -/
namespace Muaddib

structure PipelineConfig where
  batches : UInt64
  regionSize : ℕ
  pool : ℕ
  stages : ℕ
  seed : UInt64
  trace : Bool

/-- The regions of the pool can be allocated: none is larger than `isize::MAX`. -/
def PipelineConfig.Allocates (config : PipelineConfig) : Prop :=
  config.pool = 0 ∨ config.regionSize < 2 ^ 63

instance (config : PipelineConfig) : Decidable config.Allocates :=
  inferInstanceAs (Decidable (_ ∨ _))

inductive Role where
  | supervisor
  | producer
  | transformer (stage : ℕ)
  | sink
  deriving DecidableEq, Repr

inductive Action where
  | send
  | receive
  deriving DecidableEq, Repr

structure TraceEvent where
  role : Role
  action : Action
  batch : UInt64
  stamp : EventStamp

structure BatchResult where
  batch : UInt64
  checksum : UInt64
  deriving DecidableEq, Repr

structure Stats where
  schedulerTurns : UInt64
  idleTurns : UInt64
  messages : UInt64
  bytesProcessed : UInt64
  deriving DecidableEq, Repr

structure PipelineReport where
  results : List BatchResult
  trace : List TraceEvent
  stats : Stats

inductive PipelineError where
  | ipc (error : IpcError)
  | memory (error : MemoryError)
  | process (error : ProcessError)
  | missingRegion
  | stalled (turns : UInt64)
  deriving DecidableEq, Repr

structure PipelineStage where
  pid : ProcessId
  role : Role
  /-- Receive-only view of the stage's input channel. -/
  input : Option Handle
  /-- Send-only view of the stage's output channel. -/
  output : Option Handle
  /-- Producer only: the regions it owns and isn't using, first in, first out. -/
  freeRegions : List Handle
  /-- Producer only: the next batch number to emit. -/
  nextBatch : UInt64

structure KernelPipeline where
  config : PipelineConfig
  kernel : Kernel
  sched : Scheduler
  channels : ChannelRegistry
  memory : RegionRegistry
  stages : List PipelineStage

namespace PipelineReport

def new : PipelineReport := ⟨[], [], ⟨0, 0, 0, 0⟩⟩

/-- The closure `trace`: an event is recorded when the config asks for it. -/
def recordEvent (report : PipelineReport) (config : PipelineConfig) (role : Role) (action : Action)
    (batch : UInt64) (stamp : EventStamp) : PipelineReport :=
  if config.trace then { report with trace := report.trace ++ [⟨role, action, batch, stamp⟩] }
  else report

def countBytes (report : PipelineReport) (config : PipelineConfig) : PipelineReport :=
  { report with stats.bytesProcessed :=
      report.stats.bytesProcessed + UInt64.ofNat config.regionSize }

def countMessage (report : PipelineReport) : PipelineReport :=
  { report with stats.messages := report.stats.messages + 1 }

end PipelineReport

namespace KernelPipeline

abbrev Fallible := Except (Stop PipelineError)

def panic {α : Type} (message : String) : Fallible α := .error (.panic message)

/-- `Option::expect`. -/
def expect {α : Type} (message : String) : Option α → Fallible α
  | none => panic message
  | some a => .ok a

def sortedHandles (sched : Scheduler) (pid : ProcessId) : Fallible (List Handle) :=
  match sched.process pid with
  | none => panic "spawned"
  | some p => .ok p.handles

def capOf (sched : Scheduler) (pid : ProcessId) (handle : Handle) : Fallible Capability :=
  match sched.process pid with
  | none => panic "stage process exists"
  | some p => expect "a stage only ever uses handles it holds" (p.capability handle)

/-- `n` turns of the loop that creates channels. -/
def newChannels : ℕ → ChannelRegistry → Kernel → List Capability × ChannelRegistry × Kernel
  | 0, channels, kernel => ([], channels, kernel)
  | n + 1, channels, kernel =>
    let (cap, channels, kernel) := channels.newChannel kernel
    let (caps, channels, kernel) := newChannels n channels kernel
    (cap :: caps, channels, kernel)

/-- `n` turns of the loop that creates regions. -/
def newRegions (size : ℕ) :
    ℕ → RegionRegistry → Kernel → Fallible (List Capability × RegionRegistry × Kernel)
  | 0, memory, kernel => .ok ([], memory, kernel)
  | n + 1, memory, kernel =>
    match memory.newRegion kernel size with
    | (.error (.err e), _, _) => e.elim
    | (.error (.panic message), _, _) => panic message
    | (.ok cap, memory, kernel) => do
      let (caps, memory, kernel) ← newRegions size n memory kernel
      return (cap :: caps, memory, kernel)

structure Crew where
  sched : Scheduler
  kernel : Kernel
  stages : List PipelineStage

def spawnChild (crew : Crew) (supervisor : ProcessId) (grants : List Grant) :
    Fallible (ProcessId × Crew) :=
  match crew.sched.spawnChild crew.kernel supervisor grants with
  | (.error (.err e), _, _) => .error (.err (.process e))
  | (.error (.panic message), _, _) => panic message
  | (.ok pid, sched, kernel) => .ok (pid, { crew with sched, kernel })

/-- `chan[i]`. -/
def handleAt (chan : List Handle) (i : ℕ) : Fallible Handle := expect "index out of bounds" chan[i]?

/-- Spawns the sink or a transformer: its first handle is its input, its second its output. -/
def spawnStage (crew : Crew) (supervisor : ProcessId) (role : Role) (input output : Handle) :
    Fallible Crew := do
  let (pid, crew) ← spawnChild crew supervisor [.derive input .READ, .derive output .WRITE]
  let h ← sortedHandles crew.sched pid
  let first ← handleAt h 0
  let second ← handleAt h 1
  return { crew with stages := crew.stages ++ [⟨pid, role, some first, some second, [], 0⟩] }

/-- The loop over `(0..stages).rev()`. -/
def spawnTransformers (supervisor : ProcessId) (chan : List Handle) : ℕ → Crew → Fallible Crew
  | 0, crew => .ok crew
  | i + 1, crew => do
    let input ← handleAt chan i
    let output ← handleAt chan (i + 1)
    let crew ← spawnStage crew supervisor (.transformer i) input output
    spawnTransformers supervisor chan i crew

def spawnProducer (crew : Crew) (supervisor : ProcessId) (chan : List Handle) (ret : Handle)
    (regions : List Handle) : Fallible Crew := do
  let output ← handleAt chan 0
  let (pid, crew) ← spawnChild crew supervisor
    (.derive output .WRITE :: .derive ret .READ :: regions.map .move)
  let ph ← sortedHandles crew.sched pid
  let first ← handleAt ph 0
  let second ← handleAt ph 1
  return { crew with stages := crew.stages ++ [⟨pid, .producer, some second, some first, ph.drop 2, 0⟩] }

def new (config : PipelineConfig) : Fallible KernelPipeline := do
  let (supervisor, sched) := Scheduler.new.spawn []
  let (chanCaps, channels, kernel) := newChannels (config.stages + 1) .new .new
  let (returnCap, channels, kernel) := channels.newChannel kernel
  let (regionCaps, memory, kernel) ← newRegions config.regionSize config.pool .new kernel
  let sup ← expect "just spawned" (sched.process supervisor)
  let (chan, sup) := sup.grantAll chanCaps
  let (ret, sup) := sup.grant returnCap
  let (regions, sup) := sup.grantAll regionCaps
  let crew : Crew := ⟨sched.setProcess supervisor sup, kernel,
    [⟨supervisor, .supervisor, none, none, [], 0⟩]⟩
  let input ← handleAt chan config.stages
  let crew ← spawnStage crew supervisor .sink input ret
  let crew ← spawnTransformers supervisor chan config.stages crew
  let crew ← spawnProducer crew supervisor chan ret regions
  return ⟨config, crew.kernel, crew.sched, channels, memory, crew.stages⟩

def receive (kp : KernelPipeline) (pid : ProcessId) (input : Capability) :
    Fallible (Option Delivery × KernelPipeline) :=
  match kp.sched.process pid with
  | none => panic "exists"
  | some p =>
    match kp.channels.receive kp.kernel input p with
    | (.error e, _, _) => .error (.err (.ipc e))
    | (.ok delivery, channels, p) =>
      .ok (delivery, { kp with channels, sched := kp.sched.setProcess pid p })

def send (kp : KernelPipeline) (pid : ProcessId) (output : Capability) (grants : List Grant)
    (data : Int64) : Fallible (EventStamp × KernelPipeline) :=
  match kp.sched.process pid with
  | none => panic "exists"
  | some p =>
    match kp.channels.send kp.kernel output p grants data with
    | (.error (.err e), _, _, _) => .error (.err (.ipc e))
    | (.error (.panic message), _, _, _) => panic message
    | (.ok sent, channels, kernel, p) =>
      .ok (sent, { kp with channels, kernel, sched := kp.sched.setProcess pid p })

def updateRegion (kp : KernelPipeline) (region : Capability) (f : SliceUpdate Unit) :
    Fallible KernelPipeline :=
  match kp.memory.update kp.kernel region f with
  | (.error e, _) => .error (.err (.memory e))
  | (.ok (), memory) => .ok { kp with memory }

def inspectRegion (kp : KernelPipeline) (region : Capability) : Fallible UInt64 :=
  match kp.memory.inspect kp.kernel region checksum with
  | .error e => .error (.err (.memory e))
  | .ok sum => .ok sum

def fillSlice (seed batch : UInt64) : SliceUpdate Unit where
  run bytes := ((), fillBatch seed batch bytes)
  length_eq := length_fillBatch seed batch

def transformSlice (stage : ℕ) : SliceUpdate Unit where
  run bytes := ((), transform stage bytes)
  length_eq := length_transform stage

/-- What a turn leaves: the pipeline, the stage that had the turn, and the report. -/
structure Turn where
  kp : KernelPipeline
  stage : PipelineStage
  report : PipelineReport

/-- The producer's `while let` loop: it takes back every returned region. -/
def drainReturns (input : Capability) : ℕ → Bool → Turn → Option (Fallible (Bool × Turn))
  | 0, _, _ => none
  | fuel + 1, progressed, t =>
    match t.kp.receive t.stage.pid input with
    | .error e => some (.error e)
    | .ok (none, kp) => some (.ok (progressed, { t with kp }))
    | .ok (some d, kp) =>
      match d.handles with
      | [] => some (.error (.err .missingRegion))
      | region :: _ =>
        drainReturns input fuel true
          { kp
            stage := { t.stage with freeRegions := t.stage.freeRegions ++ [region] }
            report := t.report.recordEvent kp.config t.stage.role .receive d.data.toUInt64
              d.receivedAt }

/-- The producer emits the next batch, if there is one and it has a free region. -/
def emit (progressed : Bool) (t : Turn) : Fallible (Bool × Turn) :=
  if t.stage.nextBatch < t.kp.config.batches then
    match t.stage.freeRegions with
    | [] => .ok (progressed, t)
    | region :: rest => do
      let batch := t.stage.nextBatch
      let regionCap ← capOf t.kp.sched t.stage.pid region
      let kp ← t.kp.updateRegion regionCap (fillSlice t.kp.config.seed batch)
      let report := t.report.countBytes kp.config
      let handle ← expect "producer output" t.stage.output
      let output ← capOf kp.sched t.stage.pid handle
      let (sent, kp) ← kp.send t.stage.pid output [.move region] batch.toInt64
      let report := report.countMessage.recordEvent kp.config t.stage.role .send batch sent
      return (true, { kp, report,
                      stage := { t.stage with freeRegions := rest, nextBatch := batch + 1 } })
  else .ok (progressed, t)

/-- A transformer works on the region of its next message, the sink sums it; both pass it on. -/
def passOn (t : Turn) : Fallible (Bool × Turn) := do
  let handle ← expect "stage input" t.stage.input
  let input ← capOf t.kp.sched t.stage.pid handle
  match ← t.kp.receive t.stage.pid input with
  | (none, kp) => return (false, { t with kp })
  | (some d, kp) =>
    let batch := d.data.toUInt64
    let report := t.report.recordEvent kp.config t.stage.role .receive batch d.receivedAt
    match d.handles with
    | [] => .error (.err .missingRegion)
    | region :: _ =>
      let regionCap ← capOf kp.sched t.stage.pid region
      let (kp, report) ← match t.stage.role with
        | .transformer i => do
          let kp ← kp.updateRegion regionCap (transformSlice i)
          pure (kp, report)
        | _ => do
          let sum ← kp.inspectRegion regionCap
          pure (kp, { report with results := report.results ++ [⟨batch, sum⟩] })
      let report := report.countBytes kp.config
      let handle ← expect "stage output" t.stage.output
      let output ← capOf kp.sched t.stage.pid handle
      let (sent, kp) ← kp.send t.stage.pid output [.move region] d.data
      let report := report.countMessage.recordEvent kp.config t.stage.role .send batch sent
      return (true, { t with kp, report })

def stageTurn (fuel : ℕ) (t : Turn) : Option (Fallible (Bool × Turn)) :=
  match t.stage.role with
  | .supervisor => some (.ok (false, t))
  | .producer =>
    match expect "producer input" t.stage.input >>= capOf t.kp.sched t.stage.pid with
    | .error e => some (.error e)
    | .ok input => (drainReturns input fuel false t).map fun drained => do
      let (progressed, t) ← drained
      emit progressed t
  | .transformer _ | .sink => some (passOn t)

/-- One turn for the stage at `index`. Returns whether it did anything. -/
def step (fuel : ℕ) (kp : KernelPipeline) (index : ℕ) (report : PipelineReport) :
    Option (Fallible (Bool × KernelPipeline × PipelineReport)) :=
  match kp.stages[index]? with
  | none => some (panic "index out of bounds")
  | some stage => (stageTurn fuel ⟨kp, stage, report⟩).map fun result => do
    let (progressed, t) ← result
    return (progressed, { t.kp with stages := t.kp.stages.set index t.stage }, t.report)

/-- The `while` loop of `run`. -/
def runLoop (processes : UInt64) : ℕ → UInt64 → KernelPipeline → PipelineReport →
    Option (Fallible PipelineReport)
  | 0, _, _, _ => none
  | fuel + 1, idleStreak, kp, report =>
    if UInt64.ofNat report.results.length < kp.config.batches then
      match kp.sched.scheduleNext with
      | (none, _) => some (panic "pipeline has processes")
      | (some pid, sched) =>
        let kp := { kp with sched }
        let report := { report with stats.schedulerTurns := report.stats.schedulerTurns + 1 }
        match kp.stages.findIdx? (fun s => s.pid = pid) with
        | none => some (panic "every scheduled process is a stage")
        | some index =>
          match kp.step fuel index report with
          | none => none
          | some (.error e) => some (.error e)
          | some (.ok (true, kp, report)) => runLoop processes fuel 0 kp report
          | some (.ok (false, kp, report)) =>
            let report := { report with stats.idleTurns := report.stats.idleTurns + 1 }
            if processes < idleStreak + 1 then
              some (.error (.err (.stalled report.stats.schedulerTurns)))
            else runLoop processes fuel (idleStreak + 1) kp report
    else some (.ok report)

/-- Runs to completion: until the sink has finished every batch. -/
def run (fuel : ℕ) (kp : KernelPipeline) : Option (Fallible PipelineReport) :=
  runLoop (UInt64.ofNat kp.stages.length) fuel 0 kp .new

end KernelPipeline

def runKernelPipeline (fuel : ℕ) (config : PipelineConfig) :
    Option (KernelPipeline.Fallible PipelineReport) :=
  match KernelPipeline.new config with
  | .error e => some (.error e)
  | .ok kp => kp.run fuel

end Muaddib
