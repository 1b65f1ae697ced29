import Muaddib.CausalHistories
import Muaddib.ChaosHarness
import Muaddib.HandleTables

/-! # What the model mirrors

The objects are made in a fixed order, so a model of a capability determines the capability. The
model and the kernel are in step when every table, every message and the stash hold the capabilities
of their models, and every region has the epoch and the bytes of its model. -/
namespace Muaddib.Chaos
open LabelledRuns
open Std (ExtTreeMap)

/-- The place of an object in the order the objects are made in. -/
def Obj.slot : Obj → ℕ
  | .channel c => c
  | .region r => channelCount + r

def CapModel.cap (m : CapModel) : Capability := ⟨objectAt m.obj.slot, m.rights, m.epoch⟩

/-- The model of a capability for one of `n` regions, or for a channel. -/
structure CapModel.Known (n : ℕ) (m : CapModel) : Prop where
  region : ∀ r, m.obj = .region r → r < n
  channel : ∀ c, m.obj = .channel c → c < channelCount ∧ m.epoch = 0 ∧
    m.rights.contains World.channelRights = true

theorem CapModel.known_region {n r : ℕ} {rights : Rights} {epoch : UInt64} :
    (CapModel.mk (.region r) rights epoch).Known n ↔ r < n := by
  constructor
  · exact fun h => h.region r rfl
  · intro hr
    refine ⟨?_, ?_⟩
    · rintro r' ⟨⟩
      exact hr
    · rintro c ⟨⟩

theorem CapModel.known_channel {n c : ℕ} {rights : Rights} {epoch : UInt64} :
    (CapModel.mk (.channel c) rights epoch).Known n ↔
      c < channelCount ∧ epoch = 0 ∧ rights.contains World.channelRights = true := by
  constructor
  · exact fun h => h.channel c rfl
  · intro hc
    refine ⟨?_, ?_⟩
    · rintro r ⟨⟩
    · rintro c' ⟨⟩
      exact hc

instance CapModel.decidableKnown (n : ℕ) : (m : CapModel) → Decidable (m.Known n)
  | ⟨.region _, _, _⟩ => decidable_of_iff' _ known_region
  | ⟨.channel _, _, _⟩ => decidable_of_iff' _ known_channel

theorem CapModel.Known.mono {n n' : ℕ} {m : CapModel} (h : m.Known n) (hle : n ≤ n') : m.Known n' :=
  ⟨fun r hr => Nat.lt_of_lt_of_le (h.region r hr) hle, h.channel⟩

/-- The kernel holds the epochs that the models of the regions say, and the channels are in their
first epoch. -/
structure Authority (k : Kernel) (objects : List ObjectId) (regions : List RegionModel) : Prop where
  few : channelCount + regions.length < 2 ^ 64
  nextId : k.nextId = UInt64.ofNat (channelCount + regions.length)
  objects : objects = (List.range channelCount).map objectAt
  channel : ∀ c, c < channelCount → k.epochs[objectAt c]? = some 0
  region : ∀ r (region : RegionModel), regions[r]? = some region → region.object = objectAt (channelCount + r) ∧
    k.epochs[region.object]? = if region.alive then some region.epoch else none

/-- The registry holds the bytes of the regions that are alive, and nothing else. -/
structure Storage (mem : RegionRegistry) (regions : List RegionModel) : Prop where
  bytes : ∀ region ∈ regions,
    mem.regions[region.object]? = if region.alive then some region.bytes else none
  stored : ∀ o ∈ mem.regions, ∃ region ∈ regions, region.object = o
  count : mem.regionCount = (regions.filter fun region => region.alive).length

/-- A process holds the capabilities of a table of models. -/
structure Held (n : ℕ) (table : ExtTreeMap Handle CapModel) (p : Process) : Prop where
  holds : p.capabilities = table.map fun _ m => m.cap
  known : ∀ (h : Handle) (m : CapModel), table[h]? = some m → m.Known n

/-- A process and its mirror. Every process holds every channel. -/
structure Mirrored (n : ℕ) (pm : ProcModel) (p : Process) : Prop extends Held n pm.table p where
  channel : ∀ c, c < channelCount → ∃ (h : Handle) (m : CapModel),
    pm.table[h]? = some m ∧ m.obj = .channel c

def Tables (n : ℕ) (sched : Scheduler) (procs : List ProcModel) : Prop :=
  ∀ i (pm : ProcModel), procs[i]? = some pm → pm.pid = pidAt i ∧
    ∃ p, sched.process (pidAt i) = some p ∧ Mirrored n pm p

structure Sent (n : ℕ) (stamps : List EventStamp) (mm : MessageModel) (m : Message) : Prop where
  caps : m.capabilities = mm.caps.map CapModel.cap
  known : ∀ x ∈ mm.caps, x.Known n
  sentAt : stamps[mm.sendEvent]? = some m.sentAt

/-- Every queue holds the messages that are in flight. -/
structure Queues (n : ℕ) (channels : ChannelRegistry) (inFlight : List (List MessageModel))
    (stamps : List EventStamp) : Prop where
  length : inFlight.length = channelCount
  queued : ∀ c queue, inFlight[c]? = some queue → ∃ ms,
    channels.queues[objectAt c]? = some ms ∧ List.Forall₂ (Sent n stamps) queue ms

/-- Every capability ever seen is the one its model describes. -/
def Stashed (n : ℕ) (stash : List (Capability × CapModel)) : Prop :=
  ∀ x ∈ stash, x.1 = x.2.cap ∧ x.2.Known n

/-- The recorded events of `n` processes are those of the event graph. -/
structure Chronicled (g : CausalLedger) (n : ℕ) (stamps : List EventStamp) (preds : List (List ℕ))
    (lastEvent : List (Option ℕ)) (inFlight : List (List MessageModel)) : Prop where
  stamps : stamps = g.nodes.map EventNode.stamp
  preds : List.Forall₂ (fun n preds => ∀ i, i ∈ preds ↔ i ∈ n.preds) g.nodes preds
  last : lastEvent = (List.range n).map fun i => g.last (pidAt i)
  absent : ∀ id, (∀ i, i < n → id ≠ pidAt i) → g.last id = none
  inFlight : ∀ c queue, inFlight[c]? = some queue →
    queue.map MessageModel.sendEvent = g.inFlight (objectAt c)

def World.system (w : World) : System := ⟨w.k, w.sched, w.channels, w.mem⟩

/-- After the calls of a trace the model is in step with the kernel. -/
structure Mirrors (tr : List SystemEntry) (w : World) : Prop where
  run : Run System.step (fun _ _ => True) .new tr w.system
  spawns : spawnCount tr = w.procs.length
  procs : w.procs.length ≤ maxProcesses
  granted : w.regions.length ≤ ∑ i ∈ Finset.range w.procs.length, grantCount (pidAt i) tr
  authority : Authority w.k w.channelObjects w.regions
  storage : Storage w.mem w.regions
  tables : Tables w.regions.length w.sched w.procs
  queues : Queues w.regions.length w.channels w.inFlight w.stamps
  stashed : Stashed w.regions.length w.stash
  chronicled : Chronicled (causality tr) w.procs.length w.stamps w.preds w.lastEvent w.inFlight

section Checks
variable {α β : Type} {xs : List α} {i : ℕ} {a : α}

theorem ok_bind (a : α) (f : α → Check β) : (Except.ok a >>= f : Check β) = f a := rfl

theorem lookup (h : i < xs.length) : ∃ a, xs[i]? = some a := ⟨_, List.getElem?_eq_getElem h⟩

theorem set_self (h : xs[i]? = some a) : xs.set i a = xs := by
  apply List.ext_getElem?
  intro j
  rw [List.getElem?_set]
  split
  · next heq =>
    subst heq
    rw [if_pos (List.getElem?_eq_some_iff.mp h).1, h]
  · rfl

theorem index_eq (h : xs[i]? = some a) : index xs i = .ok a := by rw [index, h]; rfl

theorem expect_some (message : String) (a : α) : expect message (some a) = .ok a := rfl

theorem ensure_true {cond : Bool} (message : String) (h : cond = true) : ensure cond message = .ok () :=
  if_pos h

theorem ensure_agrees {ρ : Type} [BEq ρ] [ReflBEq ρ] (r : ρ) (message : String) (f : Unit → Check β) :
    (ensure (r == r) message >>= f) = f () := by
  rw [ensure_true message (beq_self_eq_true r), ok_bind]

end Checks

namespace Held
variable {n : ℕ} {table : ExtTreeMap Handle CapModel} {p : Process}

theorem capability (h : Held n table p) (a : Handle) :
    p.capability a = (table[a]?).map CapModel.cap := by
  rw [Process.capability, h.holds, ExtTreeMap.getElem?_map]

theorem handles (h : Held n table p) : p.handles = table.keys := by
  rw [Process.handles, h.holds, ExtTreeMap.keys_map]

theorem mono {n' : ℕ} (h : Held n table p) (hle : n ≤ n') : Held n' table p :=
  ⟨h.holds, fun a m hget => (h.known a m hget).mono hle⟩

end Held

section Predictions
variable {w : World} {m : CapModel}

theorem objectId_eq (h : Authority w.k w.channelObjects w.regions) (hm : m.Known w.regions.length) :
    w.objectId m.obj = .ok m.cap.object := by
  rw [CapModel.cap]
  cases hobj : m.obj with
  | region r =>
    obtain ⟨region, hr⟩ := lookup (hm.region r hobj)
    rw [World.objectId, index_eq hr, ok_bind, (h.region r region hr).1]
    rfl
  | channel c =>
    rw [World.objectId, h.objects]
    apply index_eq
    rw [List.getElem?_map, List.getElem?_range (hm.channel c hobj).1, Option.map_some]
    rfl

theorem predictCheck_eq (h : Authority w.k w.channelObjects w.regions) (hm : m.Known w.regions.length)
    (required : Rights) : w.predictCheck m required = .ok (w.k.check m.cap required) := by
  rw [World.predictCheck, objectId_eq h hm, ok_bind]
  cases hobj : m.obj with
  | region r =>
    obtain ⟨region, hr⟩ := lookup (hm.region r hobj)
    obtain ⟨hobject, hepoch⟩ := h.region r region hr
    have hcap : m.cap.object = region.object := by rw [hobject, CapModel.cap, hobj]; rfl
    simp only [index_eq hr, ok_bind, Kernel.check, hcap, hepoch]
    cases halive : region.alive with
    | false => rfl
    | true =>
      by_cases heq : region.epoch = m.epoch
      · by_cases hrights : m.rights.contains required = true <;>
          simp [heq, hrights, CapModel.cap, pure, Except.pure]
      · simp [heq, CapModel.cap, pure, Except.pure]
  | channel c =>
    obtain ⟨hc, hepoch, -⟩ := hm.channel c hobj
    have hcap : m.cap.object = objectAt c := by rw [CapModel.cap, hobj]; rfl
    simp only [Kernel.check, hcap, h.channel c hc]
    by_cases hrights : m.rights.contains required = true <;>
      simp [hrights, CapModel.cap, hepoch, pure, Except.pure]

end Predictions
end Muaddib.Chaos
