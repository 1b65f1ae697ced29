import Muaddib.DebugTexts
import Muaddib.SplitMix

/-! # The chaos harness

Arbitrary interleavings of kernel operations, checked step by step against a shadow model. A check
that fails and a panic both end the run. -/
namespace Muaddib.Chaos
open Std (ExtTreeMap)

def maxProcesses : ℕ := 8

def channelCount : ℕ := 3

def maxRegionSize : ℕ := 32

inductive Obj where
  | region (r : ℕ)
  | channel (c : ℕ)
  deriving DecidableEq, Repr

def Obj.isRegion : Obj → Bool
  | .region _ => true
  | .channel _ => false

structure CapModel where
  obj : Obj
  rights : Rights
  epoch : UInt64
  deriving DecidableEq, Repr

structure RegionModel where
  object : ObjectId
  alive : Bool
  epoch : UInt64
  bytes : Bytes

structure ProcModel where
  pid : ProcessId
  table : ExtTreeMap Handle CapModel

structure MessageModel where
  sendEvent : ℕ
  caps : List CapModel

inductive GrantKind where
  | transfer
  | derive (rights : Rights)
  | move
  deriving DecidableEq, Repr

/-- Which capability an access uses: the `n`-th handle of the process's own table, or the `n`-th
capability ever seen. -/
inductive Pick where
  | table (n : ℕ)
  | stash (n : ℕ)
  deriving DecidableEq, Repr

inductive Op where
  | newRegion (p size : ℕ)
  | spawn (parent : ℕ) (grants : List (ℕ × GrantKind))
  | send (p channel : ℕ) (grants : List (ℕ × GrantKind))
  | receive (p channel : ℕ)
  | read (p : ℕ) (pick : Pick) (regionsOnly : Bool) (offset len : ℕ)
  | write (p : ℕ) (pick : Pick) (regionsOnly : Bool) (offset len : ℕ) (byte : UInt8)
  | revoke (p : ℕ) (pick : Pick)
  | destroy (p : ℕ) (pick : Pick)
  | local (p : ℕ)
  deriving DecidableEq, Repr

def Op.name : Op → String
  | .newRegion .. => "new_region"
  | .spawn .. => "spawn"
  | .send .. => "send"
  | .receive .. => "receive"
  | .read .. => "read"
  | .write .. => "write"
  | .revoke .. => "revoke"
  | .destroy .. => "destroy"
  | .local .. => "local"

instance : Debug Obj where
  debug
    | .region r => debugTuple "Region" [debug r]
    | .channel c => debugTuple "Channel" [debug c]

instance : Debug CapModel := ⟨fun m => debugStruct "CapModel"
  [("obj", debug m.obj), ("rights", debug m.rights), ("epoch", debug m.epoch)]⟩

instance : Debug GrantKind where
  debug
    | .transfer => "Transfer"
    | .derive rights => debugTuple "Derive" [debug rights]
    | .move => "Move"

instance : Debug Pick where
  debug
    | .table n => debugTuple "Table" [debug n]
    | .stash n => debugTuple "Stash" [debug n]

instance : Debug Op where
  debug
    | .newRegion p size => debugStruct "NewRegion" [("p", debug p), ("size", debug size)]
    | .spawn parent grants =>
      debugStruct "Spawn" [("parent", debug parent), ("grants", debug grants)]
    | .send p channel grants => debugStruct "Send"
      [("p", debug p), ("channel", debug channel), ("grants", debug grants)]
    | .receive p channel => debugStruct "Receive" [("p", debug p), ("channel", debug channel)]
    | .read p pick regionsOnly offset len => debugStruct "Read" [("p", debug p),
      ("pick", debug pick), ("regions_only", debug regionsOnly), ("offset", debug offset),
      ("len", debug len)]
    | .write p pick regionsOnly offset len byte => debugStruct "Write" [("p", debug p),
      ("pick", debug pick), ("regions_only", debug regionsOnly), ("offset", debug offset),
      ("len", debug len), ("byte", debug byte)]
    | .revoke p pick => debugStruct "Revoke" [("p", debug p), ("pick", debug pick)]
    | .destroy p pick => debugStruct "Destroy" [("p", debug p), ("pick", debug pick)]
    | .local p => debugStruct "Local" [("p", debug p)]

structure ChaosSummary where
  seed : UInt64
  steps : ℕ
  /-- Per operation kind: succeeded, correctly rejected. -/
  outcomes : ExtTreeMap String (UInt64 × UInt64)
  events : ℕ
  staleReplaysRefused : UInt64
  logHash : UInt64

structure World where
  k : Kernel
  sched : Scheduler
  channels : ChannelRegistry
  mem : RegionRegistry
  channelObjects : List ObjectId
  regions : List RegionModel
  procs : List ProcModel
  inFlight : List (List MessageModel)
  /-- Every capability any process ever held, with the model of it. -/
  stash : List (Capability × CapModel)
  stamps : List EventStamp
  preds : List (List ℕ)
  lastEvent : List (Option ℕ)
  summary : ChaosSummary
  log : UInt64

abbrev Check := Except (Stop String)

def fail {α : Type} (message : String) : Check α := .error (.err message)

def panic {α : Type} (message : String) : Check α := .error (.panic message)

def expect {α : Type} (message : String) : Option α → Check α
  | none => panic message
  | some a => .ok a

def ensure (cond : Bool) (message : String) : Check Unit := if cond then .ok () else fail message

/-- `xs[i]`. -/
def index {α : Type} (xs : List α) (i : ℕ) : Check α := expect "index out of bounds" xs[i]?

/-- `vec![x; n]`: a capacity above `isize::MAX` bytes panics. -/
def vecOf (x : UInt8) (n : ℕ) : Check Bytes :=
  if n < 2 ^ 63 then .ok (List.replicate n x) else panic "capacity overflow"

def returned {ε α : Type} : Except (Stop ε) α → Check (Except ε α)
  | .ok a => .ok (.ok a)
  | .error (.err e) => .ok (.error e)
  | .error (.panic message) => panic message

/-- What a call without an `Err` returned. -/
def unlessPanicked {α : Type} : Except (Stop Empty) α → Check α
  | .ok a => .ok a
  | .error (.err e) => e.elim
  | .error (.panic message) => panic message

def isOk {ε α : Type} : Except ε α → Bool
  | .ok _ => true
  | .error _ => false

def deadCap {α : Type} : Except CapError α → Bool
  | .error (.revoked _) | .error (.unknownObject _) => true
  | _ => false

def deadMem {α : Type} : Except MemoryError α → Bool
  | .error (.capability (.revoked _)) | .error (.capability (.unknownObject _)) => true
  | _ => false

namespace World

def logText (w : World) (text : String) : World :=
  let log := text.toUTF8.toList.foldl (fun h b => (h ^^^ b.toUInt64) * 0x00000100000001B3) w.log
  { w with log }

/-- `sched.process(procs[p].pid).expect("exists")`. -/
def process (w : World) (p : ℕ) : Check Process := do
  let pm ← index w.procs p
  expect "exists" (w.sched.process pm.pid)

/-- Writes back process `p`. -/
def setProcess (w : World) (pid : ProcessId) (proc : Process) : World :=
  { w with sched := w.sched.setProcess pid proc }

/-- Grants `cap` into process `p` and mirrors it. -/
def install (w : World) (p : ℕ) (cap : Capability) (model : CapModel) : Check World := do
  let pm ← index w.procs p
  let proc ← w.process p
  let (handle, proc) := proc.grant cap
  return { (w.setProcess pm.pid proc) with
    procs := w.procs.set p { pm with table := pm.table.insert handle model }
    stash := w.stash ++ [(cap, model)] }

def newRegion (w : World) (p size : ℕ) : Check World := do
  let (result, mem, k) := w.mem.newRegion w.k size
  let cap ← unlessPanicked result
  let bytes ← vecOf 0 size
  let w := { w with mem, k, regions := w.regions ++ [RegionModel.mk cap.object true 0 bytes] }
  w.install p cap ⟨.region (w.regions.length - 1), cap.rights, 0⟩

def objectId (w : World) : Obj → Check ObjectId
  | .region r => do
    let region ← index w.regions r
    return region.object
  | .channel c => index w.channelObjects c

/-- The model's prediction of `Kernel::check`. -/
def predictCheck (w : World) (c : CapModel) (required : Rights) : Check (Except CapError Unit) := do
  let object ← w.objectId c.obj
  let held : Except CapError Unit :=
    if c.rights.contains required then .ok ()
    else .error (.insufficientRights object c.rights required)
  match c.obj with
  | .region r =>
    let region ← index w.regions r
    if !region.alive then return .error (.unknownObject object)
    else if region.epoch != c.epoch then return .error (.revoked object)
    else return held
  | .channel _ => return held

def recordEvent (w : World) (p : ℕ) (stamp : EventStamp) (preds : List ℕ) : Check (ℕ × World) := do
  let prev ← index w.lastEvent p
  let idx := w.stamps.length
  return (idx, { w with
    lastEvent := w.lastEvent.set p (some idx)
    stamps := w.stamps ++ [stamp]
    preds := w.preds ++ [preds ++ prev.toList] })

def outcome (w : World) (name : String) (ok : Bool) : World :=
  let entry := w.summary.outcomes[name]?.getD (0, 0)
  let entry := if ok then (entry.1 + 1, entry.2) else (entry.1, entry.2 + 1)
  { w with summary := { w.summary with outcomes := w.summary.outcomes.insert name entry } }

/-- A capability an operation uses, its model, and whether it is a replay. -/
def pickCap (w : World) (p : ℕ) (pick : Pick) (wantRegion : Bool) :
    Check (Option (Capability × CapModel × Bool)) :=
  match pick with
  | .table n => do
    let pm ← index w.procs p
    let candidates := pm.table.toList.filter fun x => !wantRegion || x.2.obj.isRegion
    match candidates[n % candidates.length]? with
    | none => return none
    | some (h, m) =>
      let proc ← expect "exists" (w.sched.process pm.pid)
      let cap ← expect "mirror checked last step" (proc.capability h)
      return some (cap, m, false)
  | .stash n =>
    let candidates := w.stash.filter fun x => !wantRegion || x.2.obj.isRegion
    match candidates[n % candidates.length]? with
    | none => return none
    | some (cap, m) => return some (cap, m, true)

/-- The concrete handles of a batch: the `n`-th region handle for each entry. -/
def concreteGrants (w : World) (p : ℕ) (grants : List (ℕ × GrantKind)) :
    Check (List (Handle × GrantKind)) := do
  let pm ← index w.procs p
  let regionHandles := (pm.table.toList.filter fun x => x.2.obj.isRegion).map Prod.fst
  if regionHandles.isEmpty then return []
  else grants.mapM fun x => do
    let h ← index regionHandles (x.1 % regionHandles.length)
    return (h, x.2)

end World

def GrantKind.leaves : GrantKind → Bool
  | .transfer | .move => true
  | .derive _ => false

def GrantKind.isMove : GrantKind → Bool
  | .move => true
  | _ => false

def toGrant : Handle × GrantKind → Grant
  | (h, .transfer) => .transfer h
  | (h, .derive r) => .derive h r
  | (h, .move) => .move h

def toGrants (grants : List (Handle × GrantKind)) : List Grant := grants.map toGrant

namespace World

/-- One entry of the first loop of `apply_grants_model`. -/
def resolveEntry (w : World) (held : CapModel) : GrantKind → Check (Option CapModel)
  | .transfer => .ok (some held)
  | .derive rights => do
    match ← w.predictCheck held .GRANT with
    | .error _ => return none
    | .ok () => if held.rights.contains rights then return some { held with rights } else return none
  | .move => do
    match ← w.predictCheck held .DESTROY with
    | .error _ => return none
    | .ok () => return some held

def resolveModel (w : World) (p : ℕ) :
    List Handle → List (Handle × GrantKind) → Check (Option (List CapModel))
  | _, [] => .ok (some [])
  | seen, (h, kind) :: grants => do
    let pm ← index w.procs p
    let held ← expect "no entry found for key" pm.table[h]?
    if kind.leaves && seen.contains h then return none
    else
      match ← w.resolveEntry held kind with
      | none => return none
      | some m =>
        let rest ← resolveModel w p (if kind.leaves then seen ++ [h] else seen) grants
        return rest.map (m :: ·)

/-- The second loop: some moved object is named by another entry. -/
def moveConflict (grants : List (Handle × GrantKind)) (resolved : List CapModel) : Bool :=
  (grants.zip resolved).zipIdx.any fun x => x.1.1.2.isMove &&
    resolved.zipIdx.any fun y => y.2 != x.2 && y.1.obj == x.1.2.obj

def removeHandle (w : World) (p : ℕ) (h : Handle) : Check World := do
  let pm ← index w.procs p
  return { w with procs := w.procs.set p { pm with table := pm.table.erase h } }

/-- The third loop: the removals and the epoch bumps of a valid batch. -/
def applyModel (p : ℕ) : List (Handle × GrantKind) → List CapModel → World →
    Check (List CapModel × World)
  | (h, kind) :: grants, m :: resolved, w =>
    match kind with
    | .transfer => do
      let w ← w.removeHandle p h
      let (rest, w) ← applyModel p grants resolved w
      return (m :: rest, w)
    | .move => do
      let w ← w.removeHandle p h
      match m.obj with
      | .channel _ => panic "internal error: entered unreachable code: only regions are moved"
      | .region r =>
        let region ← index w.regions r
        let epoch := region.epoch + 1
        let w := { w with regions := w.regions.set r { region with epoch } }
        let (rest, w) ← applyModel p grants resolved w
        return ({ m with epoch } :: rest, w)
    | .derive _ => do
      let (rest, w) ← applyModel p grants resolved w
      return (m :: rest, w)
  | _, resolved, w => .ok (resolved, w)

/-- The model of `resolve_grants` and `apply_grants`: nothing if the batch must be rejected, and
otherwise the delivered models. -/
def applyGrantsModel (w : World) (p : ℕ) (grants : List (Handle × GrantKind)) :
    Check (Option (List CapModel) × World) := do
  match ← w.resolveModel p [] grants with
  | none => return (none, w)
  | some resolved =>
    if moveConflict grants resolved then return (none, w)
    else
      let (delivered, w) ← applyModel p grants resolved w
      return (some delivered, w)

def channelHandle (w : World) (p channel : ℕ) (message : String) : Check Handle := do
  let pm ← index w.procs p
  let (h, _) ← expect message (pm.table.toList.find? fun x => x.2.obj == .channel channel)
  return h

def channelCap (w : World) (p channel : ℕ) : Check Capability := do
  let h ← w.channelHandle p channel "every process holds every channel"
  let proc ← w.process p
  expect "mirror checked" (proc.capability h)

/-- The model of the checks of `read` and `write`, in the registry's order. -/
def predictAccess (w : World) (c : CapModel) (required : Rights) (offset len : ℕ) :
    Check (Except MemoryError Unit) := do
  match ← w.predictCheck c required with
  | .error e => return .error (.capability e)
  | .ok () =>
    let object ← w.objectId c.obj
    match c.obj with
    | .channel _ => return .error (.unknownRegion object)
    | .region r =>
      let region ← index w.regions r
      let size := region.bytes.length
      match checkedAdd offset len with
      | some stop =>
        if stop ≤ size then return .ok () else return .error (.outOfBounds object offset len size)
      | none => return .error (.outOfBounds object offset len size)

def noteAccess (w : World) (name : String) (stale ok refusedAsDead : Bool) (shown : String) : World :=
  let w := w.outcome name ok
  let w := if stale && refusedAsDead then
    { w with summary := { w.summary with
        staleReplaysRefused := w.summary.staleReplaysRefused + 1 } } else w
  w.logText (name ++ " stale=" ++ debug stale ++ " -> " ++ shown)

def executeNewRegion (w : World) (p size : ℕ) : Check World := do
  let w ← w.newRegion p size
  return (w.outcome "new_region" true).logText ("new_region " ++ debug p ++ " " ++ debug size)

def executeLocal (w : World) (p : ℕ) : Check World := do
  let pm ← index w.procs p
  let proc ← w.process p
  let (s, proc) := proc.recordLocalEvent
  let (_, w) ← (w.setProcess pm.pid proc).recordEvent p s []
  return (w.outcome "local" true).logText ("local " ++ debug p)

/-- A delivered capability enters the mirror of process `p`. -/
def mirror (w : World) (p : ℕ) (pid : ProcessId) (h : Handle) (m : CapModel) : Check World := do
  let proc ← expect "called `Option::unwrap()` on a `None` value" (w.sched.process pid)
  let cap ← expect "called `Option::unwrap()` on a `None` value" (proc.capability h)
  let pm ← index w.procs p
  return { w with
    procs := w.procs.set p { pm with table := pm.table.insert h m }
    stash := w.stash ++ [(cap, m)] }

def mirrorAll (p : ℕ) (pid : ProcessId) : List (Handle × CapModel) → World → Check World
  | [], w => .ok w
  | (h, m) :: delivered, w => do
    let w ← w.mirror p pid h m
    mirrorAll p pid delivered w

def channelRights : Rights := .READ ||| .WRITE ||| .GRANT

def channelGrants (w : World) (p : ℕ) : Check (List Grant) :=
  (List.range channelCount).mapM fun c => do
    let h ← w.channelHandle p c "channels"
    return Grant.derive h channelRights

def recordSpawn (w : World) (parent : ℕ) (child : ProcessId) (delivered : List CapModel) :
    Check World := do
  let parentProc ← w.process parent
  let (spawnEvent, w) ← w.recordEvent parent parentProc.currentStamp []
  let childProc ← expect "called `Option::unwrap()` on a `None` value" (w.sched.process child)
  let handles := childProc.handles
  let models := (List.range channelCount).map (fun c => ⟨.channel c, channelRights, 0⟩) ++ delivered
  ensure (handles.length == models.length)
    ("child got " ++ debug handles.length ++ " handles, model " ++ debug models.length)
  let childIndex := w.procs.length
  let w := { w with
    procs := w.procs ++ [ProcModel.mk child ∅]
    lastEvent := w.lastEvent ++ [none] }
  let w ← mirrorAll childIndex child (handles.zip models) w
  let childProc ← expect "called `Option::unwrap()` on a `None` value" (w.sched.process child)
  let (_, w) ← w.recordEvent childIndex childProc.currentStamp [spawnEvent]
  return w

def executeSpawn (w : World) (parent : ℕ) (grants : List (ℕ × GrantKind)) : Check World := do
  if w.procs.length = maxProcesses then return w
  else
    let concrete ← w.concreteGrants parent grants
    let (predicted, w) ← w.applyGrantsModel parent concrete
    let channelGrants ← w.channelGrants parent
    let pm ← index w.procs parent
    let (result, sched, k) := w.sched.spawnChild w.k pm.pid (channelGrants ++ toGrants concrete)
    let result ← returned result
    let w := { w with sched, k }
    let w := w.logText ("spawn " ++ debug parent ++ " " ++ debug concrete ++ " -> " ++
      debug (isOk result))
    let w := w.outcome "spawn" (isOk result)
    match result, predicted with
    | .error _, none => return w
    | .ok child, some delivered => w.recordSpawn parent child delivered
    | r, pred => fail ("spawn: kernel " ++ debug (r.map fun _ => ()) ++
        ", model predicted success=" ++ debug pred.isSome)

def executeSend (w : World) (p channel : ℕ) (grants : List (ℕ × GrantKind)) : Check World := do
  let concrete ← w.concreteGrants p grants
  let (predicted, w) ← w.applyGrantsModel p concrete
  let chan ← w.channelCap p channel
  let pm ← index w.procs p
  let proc ← w.process p
  let (result, channels, k, proc) := w.channels.send w.k chan proc (toGrants concrete) 0
  let result ← returned result
  let w := { (w.setProcess pm.pid proc) with channels, k }
  let w := w.logText ("send " ++ debug p ++ " " ++ debug channel ++ " " ++ debug concrete ++ " -> " ++
    debug (isOk result))
  let w := w.outcome "send" (isOk result)
  match result, predicted with
  | .error _, none => return w
  | .ok stamp, some caps =>
    let (sendEvent, w) ← w.recordEvent p stamp []
    let queue ← index w.inFlight channel
    return { w with inFlight := w.inFlight.set channel (queue ++ [MessageModel.mk sendEvent caps]) }
  | r, pred => fail ("send: kernel " ++ debug (r.map fun _ => ()) ++
      ", model predicted success=" ++ debug pred.isSome)

def executeReceive (w : World) (p channel : ℕ) : Check World := do
  let chan ← w.channelCap p channel
  let pm ← index w.procs p
  let proc ← w.process p
  let (result, channels, proc) := w.channels.receive w.k chan proc
  let queue ← index w.inFlight channel
  let w := { (w.setProcess pm.pid proc) with
    channels, inFlight := w.inFlight.set channel queue.tail }
  match result with
  | .error e => fail ("receive failed: " ++ display e)
  | .ok delivery =>
    let w := w.logText ("receive " ++ debug p ++ " " ++ debug channel ++ " -> " ++
      debug delivery.isSome)
    let w := w.outcome "receive" delivery.isSome
    match delivery, queue.head? with
    | none, none => return w
    | some d, some msg =>
      let sentAt ← index w.stamps msg.sendEvent
      ensure (d.sentAt.eq sentAt) "delivered message carries the wrong send stamp"
      ensure (d.handles.length == msg.caps.length)
        ("delivered " ++ debug d.handles.length ++ " caps, model " ++ debug msg.caps.length)
      let w ← mirrorAll p pm.pid (d.handles.zip msg.caps) w
      let (_, w) ← w.recordEvent p d.receivedAt [msg.sendEvent]
      return w
    | d, e => fail ("receive: kernel delivered=" ++ debug d.isSome ++
        ", model expected=" ++ debug e.isSome)

/-- `let Obj::Region(r) = model.obj else { unreachable!() }`. -/
def regionOf (m : CapModel) : Check ℕ :=
  match m.obj with
  | .region r => .ok r
  | .channel _ => panic "internal error: entered unreachable code"

def executeRead (w : World) (p : ℕ) (pick : Pick) (regionsOnly : Bool) (offset len : ℕ) :
    Check World := do
  match ← w.pickCap p pick regionsOnly with
  | none => return w
  | some (cap, model, stale) =>
    let predicted ← match ← w.predictAccess model .READ offset len with
      | .error e => pure (.error e : Except MemoryError Bytes)
      | .ok () => do
        let r ← regionOf model
        let region ← index w.regions r
        pure (.ok (RegionRegistry.slice region.bytes offset (offset + len)))
    let result ← returned (w.mem.read w.k cap offset len)
    let w := w.noteAccess "read" stale (isOk result) (deadMem result) (debug result)
    ensure (result == predicted) ("read: kernel " ++ debug result ++ ", model " ++ debug predicted)
    return w

def executeWrite (w : World) (p : ℕ) (pick : Pick) (regionsOnly : Bool) (offset len : ℕ)
    (byte : UInt8) : Check World := do
  match ← w.pickCap p pick regionsOnly with
  | none => return w
  | some (cap, model, stale) =>
    let predicted ← w.predictAccess model .WRITE offset len
    let data ← vecOf byte len
    let (result, mem) := w.mem.write w.k cap offset data
    let result ← returned result
    let w := { w with mem }
    let w := w.noteAccess "write" stale (isOk result) (deadMem result) (debug result)
    ensure (result == predicted) ("write: kernel " ++ debug result ++ ", model " ++ debug predicted)
    if isOk result then
      let r ← regionOf model
      let region ← index w.regions r
      let bytes := RegionRegistry.overwrite region.bytes offset data
      return { w with regions := w.regions.set r { region with bytes } }
    else return w

def executeRevoke (w : World) (p : ℕ) (pick : Pick) : Check World := do
  match ← w.pickCap p pick true with
  | none => return w
  | some (cap, model, stale) =>
    let predicted ← w.predictCheck model .DESTROY
    let (result, k) := w.k.revoke cap
    let result ← returned result
    let w := { w with k }
    let w := w.noteAccess "revoke" stale (isOk result) (deadCap result) (debug result)
    ensure (result == predicted) ("revoke: kernel " ++ debug result ++ ", model " ++ debug predicted)
    if isOk result then
      let r ← regionOf model
      let region ← index w.regions r
      return { w with regions := w.regions.set r { region with epoch := region.epoch + 1 } }
    else return w

def executeDestroy (w : World) (p : ℕ) (pick : Pick) : Check World := do
  match ← w.pickCap p pick true with
  | none => return w
  | some (cap, model, stale) =>
    let predicted := (← w.predictCheck model .DESTROY).mapError MemoryError.capability
    let (result, mem, k) := w.mem.destroyRegion w.k cap
    let w := { w with mem, k }
    let w := w.noteAccess "destroy" stale (isOk result) (deadMem result) (debug result)
    ensure (result == predicted)
      ("destroy: kernel " ++ debug result ++ ", model " ++ debug predicted)
    if isOk result then
      let r ← regionOf model
      let region ← index w.regions r
      return { w with regions := w.regions.set r { region with alive := false } }
    else return w

def execute (w : World) : Op → Check World
  | .newRegion p size => w.executeNewRegion p size
  | .local p => w.executeLocal p
  | .spawn parent grants => w.executeSpawn parent grants
  | .send p channel grants => w.executeSend p channel grants
  | .receive p channel => w.executeReceive p channel
  | .read p pick regionsOnly offset len => w.executeRead p pick regionsOnly offset len
  | .write p pick regionsOnly offset len byte => w.executeWrite p pick regionsOnly offset len byte
  | .revoke p pick => w.executeRevoke p pick
  | .destroy p pick => w.executeDestroy p pick

/-- Every entry of a table against the capability the process really holds. -/
def sweepTable (w : World) (i : ℕ) (proc : Process) : List (Handle × CapModel) → Check Unit
  | [] => .ok ()
  | (h, m) :: entries => do
    let cap ← expect "present" (proc.capability h)
    let object ← w.objectId m.obj
    ensure (cap.object == object && cap.rights == m.rights)
      ("process " ++ debug i ++ " handle " ++ debug h ++ ": " ++ debug cap ++ " != model " ++ debug m)
    sweepTable w i proc entries

def sweepProcs (w : World) : ℕ → List ProcModel → Check Unit
  | _, [] => .ok ()
  | i, pm :: procs => do
    let proc ← expect "exists" (w.sched.process pm.pid)
    ensure (proc.handles == pm.table.keys) ("process " ++ debug i ++ " table " ++
      debug proc.handles ++ " != model " ++ debug pm.table.keys)
    w.sweepTable i proc pm.table.toList
    sweepProcs w (i + 1) procs

def sweepStash (w : World) : List (Capability × CapModel) → Check Unit
  | [] => .ok ()
  | (cap, m) :: stash => do
    let real := w.k.check cap .NONE
    let predicted ← w.predictCheck m .NONE
    ensure (real == predicted) ("liveness of " ++ debug cap ++ ": kernel " ++ debug real ++
      ", model " ++ debug predicted)
    sweepStash w stash

/-- The first capability the model says can currently read region `r`. -/
def findAuditor (w : World) (r : ℕ) : List (Capability × CapModel) → Check (Option Capability)
  | [] => .ok none
  | (cap, m) :: stash =>
    if m.obj = .region r then do
      let predicted ← w.predictCheck m .READ
      if isOk predicted then return some cap else findAuditor w r stash
    else findAuditor w r stash

def auditor (w : World) (r : ℕ) : Check (Option Capability) := w.findAuditor r w.stash

def sweepRegions (w : World) : ℕ → List RegionModel → Check Unit
  | _, [] => .ok ()
  | r, region :: regions => do
    match ← w.auditor r with
    | none => sweepRegions w (r + 1) regions
    | some cap =>
      let real := w.mem.inspect w.k cap id
      ensure (real == .ok region.bytes) ("region " ++ debug r ++ " bytes " ++ debug real ++
        " != model " ++ debug region.bytes)
      sweepRegions w (r + 1) regions

def sweep (w : World) : Check Unit := do
  w.sweepProcs 0 w.procs
  w.sweepStash w.stash
  let alive := (w.regions.filter fun region => region.alive).length
  ensure (w.mem.regionCount == alive)
    (debug w.mem.regionCount ++ " regions allocated, model " ++ debug alive)
  w.sweepRegions 0 w.regions

/-- One row of the reachability matrix: the direct predecessors and what they reach. -/
def reachRow (earlier : List (List Bool)) : List ℕ → List Bool → Check (List Bool)
  | [], row => .ok row
  | p :: preds, row => do
    let _ ← index row p
    let src ← index earlier p
    reachRow earlier preds (List.zipWith (· || ·) (row.set p true) src)

def reachRows (n : ℕ) : List (List ℕ) → List (List Bool) → Check (List (List Bool))
  | [], rows => .ok rows
  | preds :: rest, rows => do
    let row ← reachRow rows preds (List.replicate n false)
    reachRows n rest (rows ++ [row])

def checkPair (reach : List (List Bool)) (i j : ℕ) (stampI stampJ : EventStamp) : Check Unit :=
  if i = j then .ok ()
  else do
    let row ← index reach j
    let truth ← index row i
    ensure (stampI.happenedBefore stampJ == truth) ("causality: event " ++ debug i ++ " before " ++
      debug j ++ " is " ++ debug truth ++ ", vector clocks disagree")
    if truth then
      ensure (decide (stampI.lamport < stampJ.lamport))
        ("Lamport clock condition violated for " ++ debug i ++ " -> " ++ debug j)
    else .ok ()

def checkCausality (w : World) : Check Unit := do
  let reach ← reachRows w.stamps.length w.preds []
  w.stamps.zipIdx.forM fun x => w.stamps.zipIdx.forM fun y => checkPair reach x.2 y.2 x.1 y.1

def empty : World where
  k := .new
  sched := .new
  channels := .new
  mem := .new
  channelObjects := []
  regions := []
  procs := []
  inFlight := List.replicate channelCount []
  stash := []
  stamps := []
  preds := []
  lastEvent := []
  summary := ⟨0, 0, ∅, 0, 0, 0⟩
  log := 0xCBF29CE484222325

def installChannels : List ℕ → World → Check World
  | [], w => .ok w
  | c :: cs, w => do
    let (cap, channels, k) := w.channels.newChannel w.k
    let w := { w with channels, k, channelObjects := w.channelObjects ++ [cap.object] }
    let w ← w.install 0 cap ⟨.channel c, cap.rights, 0⟩
    installChannels cs w

def new : Check World := do
  let (root, sched) := empty.sched.spawn []
  let w := { empty with sched, procs := [ProcModel.mk root ∅], lastEvent := [none] }
  let w ← installChannels (List.range channelCount) w
  let w ← w.newRegion 0 8
  w.newRegion 0 8

end World

def arbRights (rng : SplitMix64) : Rights × SplitMix64 :=
  [Rights.READ, .WRITE, .EXECUTE, .GRANT, .DESTROY].foldl (fun (acc, rng) r =>
    let (held, rng) := rng.percent 50
    (if held then acc ||| r else acc, rng)) (.NONE, rng)

def arbPick (rng : SplitMix64) : Pick × SplitMix64 :=
  let (replay, rng) := rng.percent 30
  let (n, rng) := rng.below (2 ^ 16)
  (if replay then .stash n else .table n, rng)

/-- Mostly small, plausible accesses, and sometimes wild ones. -/
def arbSpan (rng : SplitMix64) : (ℕ × ℕ) × SplitMix64 :=
  let (small, rng) := rng.percent 75
  let (offset, rng) := rng.below (if small then 4 else maxRegionSize + 8)
  let (len, rng) := rng.below (if small then 5 else 10)
  ((offset, len), rng)

def arbKind (choice : ℕ) (rng : SplitMix64) : GrantKind × SplitMix64 :=
  match choice with
  | 0 => (.transfer, rng)
  | 1 =>
    let (rights, rng) := arbRights rng
    (.derive rights, rng)
  | _ => (.move, rng)

def arbGrant (rng : SplitMix64) : (ℕ × GrantKind) × SplitMix64 :=
  let choice := rng.below 3
  let kind := arbKind choice.1 choice.2
  let index := kind.2.below (2 ^ 16)
  ((index.1, kind.1), index.2)

def arbGrantList : ℕ → SplitMix64 → List (ℕ × GrantKind) × SplitMix64
  | 0, rng => ([], rng)
  | n + 1, rng =>
    let grant := arbGrant rng
    let grants := arbGrantList n grant.2
    (grant.1 :: grants.1, grants.2)

def arbGrants (rng : SplitMix64) : List (ℕ × GrantKind) × SplitMix64 :=
  let (n, rng) := rng.below 4
  arbGrantList n rng

def opFor (p choice : ℕ) (rng : SplitMix64) : Op × SplitMix64 :=
  if choice ≤ 5 then
    let (size, rng) := rng.below maxRegionSize
    (.newRegion p (1 + size), rng)
  else if choice ≤ 10 then
    let grants := arbGrants rng
    (.spawn p grants.1, grants.2)
  else if choice ≤ 28 then
    let (channel, rng) := rng.below channelCount
    let grants := arbGrants rng
    (.send p channel grants.1, grants.2)
  else if choice ≤ 46 then
    let (channel, rng) := rng.below channelCount
    (.receive p channel, rng)
  else if choice ≤ 61 then
    let ((offset, len), rng) := arbSpan rng
    let (pick, rng) := arbPick rng
    let (any, rng) := rng.percent 15
    (.read p pick (!any) offset len, rng)
  else if choice ≤ 76 then
    let ((offset, len), rng) := arbSpan rng
    let (pick, rng) := arbPick rng
    let (any, rng) := rng.percent 15
    let (byte, rng) := rng.nextU64
    (.write p pick (!any) offset len byte.toUInt8, rng)
  else if choice ≤ 85 then
    let (pick, rng) := arbPick rng
    (.revoke p pick, rng)
  else if choice ≤ 91 then
    let (pick, rng) := arbPick rng
    (.destroy p pick, rng)
  else (.local p, rng)

def World.generate (w : World) (rng : SplitMix64) : Op × SplitMix64 :=
  let (p, rng) := rng.below w.procs.length
  let (choice, rng) := rng.below 100
  opFor p choice rng

/-- At the first step at or after `step` where some region can be audited, one byte of the model is
corrupted. -/
inductive Fault where
  | corruptModelAt (step : ℕ)

structure ChaosConfig where
  seed : UInt64
  steps : ℕ
  fault : Option Fault

structure ChaosFailure where
  seed : UInt64
  steps : ℕ
  step : ℕ
  op : String
  message : String
  deriving DecidableEq, Repr

/-- The failure of a check at a step. `shown` is the operation as a failed check shows it, and
`progress` the operation as a panic does. -/
def ChaosConfig.failAt (config : ChaosConfig) (step : ℕ) (shown progress : String) :
    Stop String → ChaosFailure
  | .err message => ⟨config.seed, config.steps, step, shown, message⟩
  | .panic message => ⟨config.seed, config.steps, step, progress, "kernel panicked: " ++ message⟩

/-- `map_err` and `catch_unwind`. -/
def ChaosConfig.guarded {α : Type} (config : ChaosConfig) (step : ℕ) (shown progress : String)
    (check : Check α) : Except ChaosFailure α := check.mapError (config.failAt step shown progress)

namespace World

def findTarget (w : World) : ℕ → List RegionModel → Check (Option ℕ)
  | _, [] => .ok none
  | r, region :: regions =>
    if region.bytes.isEmpty then findTarget w (r + 1) regions
    else do
      let cap ← w.auditor r
      if cap.isSome then return some r else findTarget w (r + 1) regions

/-- The first byte of region `r` of the model is flipped. -/
def corrupt (w : World) (r : ℕ) : Check World := do
  let region ← index w.regions r
  let byte ← index region.bytes 0
  return { w with
    regions := w.regions.set r { region with bytes := region.bytes.set 0 (byte ^^^ 0xFF) } }

def inject (w : World) (fault : Option Fault) (step : ℕ) : Check (World × Option Fault) :=
  match fault with
  | none => return (w, none)
  | some (.corruptModelAt at_) =>
    if at_ ≤ step then do
      match ← w.findTarget 0 w.regions with
      | none => return (w, fault)
      | some r =>
        let w ← w.corrupt r
        return (w, none)
    else return (w, fault)

end World

/-- One step, with the operation that was generated for it, and then the `next` ones. -/
def runStep (config : ChaosConfig)
    (next : ℕ → SplitMix64 → World → Option Fault → Except ChaosFailure World) (step : ℕ) :
    Op × SplitMix64 → World → Option Fault → Except ChaosFailure World
  | (op, rng), w, fault => do
    let shown := debug op
    let w ← config.guarded step shown shown (w.execute op)
    let (w, fault) ← config.guarded step shown shown (w.inject fault step)
    config.guarded step (shown ++ " (" ++ op.name ++ ")") shown w.sweep
    next (step + 1) rng w fault

/-- The loop over the steps, `n` of them from `step` on. -/
def runLoop (config : ChaosConfig) : ℕ → ℕ → SplitMix64 → World → Option Fault →
    Except ChaosFailure World
  | 0, _, _, w, _ => .ok w
  | n + 1, step, rng, w, fault => runStep config (runLoop config n) step (w.generate rng) w fault

def runSteps (config : ChaosConfig) : Except ChaosFailure ChaosSummary := do
  let w ← config.guarded 0 "setup" "setup" World.new
  let w ← runLoop config config.steps 0 (.new config.seed) w config.fault
  let final := "end-of-run causality check"
  config.guarded config.steps final final w.checkCausality
  return { w.summary with
    seed := config.seed
    steps := config.steps
    events := w.stamps.length
    logHash := w.log }

def runChaos (config : ChaosConfig) : Except ChaosFailure ChaosSummary := runSteps config

end Muaddib.Chaos
