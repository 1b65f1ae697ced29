import Muaddib.Capabilities
import Muaddib.LogicalClocks

/-! # A process's private capability table and its clock -/
namespace Muaddib
open Std (ExtTreeMap TransOrd LawfulEqOrd)

structure ProcessId where
  val : UInt64
  deriving DecidableEq, Repr

instance : Ord ProcessId := ⟨fun a b => compare a.val b.val⟩

instance : TransOrd ProcessId := FiniteMaps.transOrd_of_comap ProcessId.val fun _ _ => rfl

instance : LawfulEqOrd ProcessId :=
  FiniteMaps.lawfulEqOrd_of_comap ProcessId.val (fun _ _ => rfl) fun _ _ => congrArg ProcessId.mk

/-- A process-local name for one entry of that process's own table. -/
structure Handle where
  val : UInt32
  deriving DecidableEq, Repr

instance : Ord Handle := ⟨fun a b => compare a.val b.val⟩

instance : TransOrd Handle := FiniteMaps.transOrd_of_comap Handle.val fun _ _ => rfl

instance : LawfulEqOrd Handle :=
  FiniteMaps.lawfulEqOrd_of_comap Handle.val (fun _ _ => rfl) fun _ _ => congrArg Handle.mk

abbrev EventStamp := Stamp ProcessId

structure Process where
  id : ProcessId
  capabilities : ExtTreeMap Handle Capability
  nextHandle : UInt32
  clock : EventClock ProcessId
  deriving DecidableEq

namespace Process

def new (id : ProcessId) : Process := ⟨id, ∅, 0, .new id⟩

/-- Adds `cap` under the next handle. The counter is 32 bits wide and wraps. -/
def grant (p : Process) (cap : Capability) : Handle × Process :=
  let handle : Handle := ⟨p.nextHandle⟩
  (handle, { p with
    nextHandle := p.nextHandle + 1
    capabilities := p.capabilities.insert handle cap })

/-- Grants a sequence of capabilities, one after the other, and collects their handles. -/
def grantAll (p : Process) : List Capability → List Handle × Process
  | [] => ([], p)
  | cap :: caps =>
    let (handle, p) := p.grant cap
    let (handles, p) := p.grantAll caps
    (handle :: handles, p)

def capability (p : Process) (handle : Handle) : Option Capability := p.capabilities[handle]?

def take (p : Process) (handle : Handle) : Option Capability × Process :=
  (p.capabilities[handle]?, { p with capabilities := p.capabilities.erase handle })

def handles (p : Process) : List Handle := p.capabilities.keys

def handleCount (p : Process) : ℕ := p.capabilities.size

def currentStamp (p : Process) : EventStamp := p.clock.current

def recordLocalEvent (p : Process) : EventStamp × Process :=
  let (stamp, clock) := p.clock.localEvent
  (stamp, { p with clock })

def recordSend (p : Process) : EventStamp × Process :=
  let (stamp, clock) := p.clock.sendEvent
  (stamp, { p with clock })

def recordReceive (p : Process) (sent : EventStamp) : EventStamp × Process :=
  let (stamp, clock) := p.clock.receiveEvent sent
  (stamp, { p with clock })

@[simp] theorem capability_new (id : ProcessId) (h : Handle) : (new id).capability h = none := by
  simp [new, capability]

theorem capability_grant (p : Process) (cap : Capability) (h : Handle) :
    (p.grant cap).2.capability h = if ⟨p.nextHandle⟩ = h then some cap else p.capability h :=
  FiniteMaps.getElem?_insert ..

theorem capability_take (p : Process) (h a : Handle) :
    (p.take h).2.capability a = if h = a then none else p.capability a :=
  FiniteMaps.getElem?_erase ..

@[simp] theorem recordReceive_capability (p : Process) (s : EventStamp) (h : Handle) :
    (p.recordReceive s).2.capability h = p.capability h := rfl

@[simp] theorem grantAll_clock (p : Process) (caps : List Capability) :
    (p.grantAll caps).2.clock = p.clock := by
  induction caps generalizing p with
  | nil => rfl
  | cons cap caps ih => exact ih (p.grant cap).2

@[simp] theorem grantAll_length (p : Process) (caps : List Capability) :
    (p.grantAll caps).1.length = caps.length := by
  induction caps generalizing p with
  | nil => rfl
  | cons cap caps ih => exact congrArg (· + 1) (ih (p.grant cap).2)

theorem grantAll_handles_congr {p q : Process} (caps : List Capability)
    (h : p.nextHandle = q.nextHandle) : (p.grantAll caps).1 = (q.grantAll caps).1 := by
  induction caps generalizing p q with
  | nil => rfl
  | cons cap caps ih =>
    have hnext : (p.grant cap).2.nextHandle = (q.grant cap).2.nextHandle := by simp [grant, h]
    have hfirst : (p.grant cap).1 = (q.grant cap).1 := by simp [grant, h]
    have hrest := ih hnext
    change (p.grant cap).1 :: ((p.grant cap).2.grantAll caps).1 =
      (q.grant cap).1 :: ((q.grant cap).2.grantAll caps).1
    rw [hfirst, hrest]

theorem grantAll_nextHandle (p : Process) (caps : List Capability) :
    (p.grantAll caps).2.nextHandle = p.nextHandle + UInt32.ofNat caps.length := by
  induction caps generalizing p with
  | nil => simp [grantAll]
  | cons cap caps ih =>
    change ((p.grant cap).2.grantAll caps).2.nextHandle = _
    rw [ih]
    simp [grant, UInt32.add_assoc, UInt32.add_comm]

theorem grantAll_cons (p : Process) (cap : Capability) (caps : List Capability) :
    p.grantAll (cap :: caps) = (⟨p.nextHandle⟩ :: ((p.grant cap).2.grantAll caps).1,
      ((p.grant cap).2.grantAll caps).2) := rfl

theorem grantAll_append (p : Process) (caps more : List Capability) :
    (p.grantAll (caps ++ more)).2 = ((p.grantAll caps).2.grantAll more).2 := by
  induction caps generalizing p with
  | nil => rfl
  | cons cap caps ih =>
    rw [List.cons_append, grantAll_cons, grantAll_cons]
    exact ih (p.grant cap).2

theorem mem_grantAll_handles {p : Process} {caps : List Capability} {h : Handle}
    (hh : h ∈ (p.grantAll caps).1) :
    ∃ i, i < caps.length ∧ h.val = p.nextHandle + UInt32.ofNat i := by
  induction caps generalizing p with
  | nil => cases hh
  | cons cap caps ih =>
    rw [grantAll_cons] at hh
    rcases List.mem_cons.mp hh with rfl | hh
    · exact ⟨0, Nat.succ_pos _, (UInt32.add_zero _).symm⟩
    · obtain ⟨i, hi, hval⟩ := ih hh
      refine ⟨i + 1, Nat.succ_lt_succ hi, ?_⟩
      rw [hval, grant, UInt32.ofNat_add, UInt32.add_assoc, UInt32.add_comm 1]
      rfl

theorem capability_grantAll_of_notMem {p : Process} {caps : List Capability} {h : Handle}
    (hh : h ∉ (p.grantAll caps).1) : (p.grantAll caps).2.capability h = p.capability h := by
  induction caps generalizing p with
  | nil => rfl
  | cons cap caps ih =>
    rw [grantAll_cons, List.mem_cons, not_or] at hh
    rw [grantAll_cons, ih hh.2, capability_grant, if_neg (Ne.symm hh.1)]

/-- The handles of a batch resolve to its capabilities in order, if the counter does not give
one of them out twice. -/
theorem grantAll_resolves (p : Process) (caps : List Capability) (h : caps.length ≤ 2 ^ 32) :
    (p.grantAll caps).1.map (p.grantAll caps).2.capability = caps.map some := by
  induction caps generalizing p with
  | nil => rfl
  | cons cap caps ih =>
    rw [List.length_cons] at h
    have hrest := ih (p.grant cap).2 (by omega)
    have hfresh : (⟨p.nextHandle⟩ : Handle) ∉ ((p.grant cap).2.grantAll caps).1 := by
      intro hmem
      obtain ⟨i, hi, hval⟩ := mem_grantAll_handles hmem
      have hsum : p.nextHandle = p.nextHandle + UInt32.ofNat (i + 1) := by
        refine hval.trans ?_
        rw [grant, UInt32.ofNat_add, UInt32.add_assoc, UInt32.add_comm 1]
        rfl
      have hzero := congrArg UInt32.toNat (UInt32.left_eq_add.mp hsum)
      rw [UInt32.toNat_ofNat', Nat.mod_eq_of_lt (by omega)] at hzero
      exact absurd hzero (Nat.succ_ne_zero i)
    have hfirst := capability_grantAll_of_notMem hfresh
    rw [capability_grant, if_pos rfl] at hfirst
    rw [grantAll_cons, List.map_cons, List.map_cons, hfirst, hrest]

end Process
end Muaddib
