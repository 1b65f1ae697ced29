import Muaddib.FiniteMaps

/-! # Rights: the bit set a capability carries -/
namespace Muaddib

/-- What a capability permits, as the 32-bit flag word of the source. -/
structure Rights where
  bits : UInt32
  deriving DecidableEq, Repr

namespace Rights

def NONE : Rights := ⟨0⟩
def READ : Rights := ⟨(1 : UInt32) <<< 0⟩
def WRITE : Rights := ⟨(1 : UInt32) <<< 1⟩
def EXECUTE : Rights := ⟨(1 : UInt32) <<< 2⟩
def GRANT : Rights := ⟨(1 : UInt32) <<< 3⟩
def DESTROY : Rights := ⟨(1 : UInt32) <<< 4⟩

instance : OrOp Rights := ⟨fun a b => ⟨a.bits ||| b.bits⟩⟩
instance : AndOp Rights := ⟨fun a b => ⟨a.bits &&& b.bits⟩⟩

def ALL : Rights := READ ||| WRITE ||| EXECUTE ||| GRANT ||| DESTROY

/-- True if `self` includes every bit set in `required`. -/
def contains (self required : Rights) : Bool := self.bits &&& required.bits == required.bits

def isEmpty (self : Rights) : Bool := self.bits == 0

theorem contains_iff {a b : Rights} : a.contains b = true ↔ a.bits &&& b.bits = b.bits := by
  simp [contains]

@[simp] theorem contains_NONE (a : Rights) : a.contains NONE = true := by
  simp [contains, NONE]

@[simp] theorem contains_refl (a : Rights) : a.contains a = true := by
  simp [contains]

/-- Containment of rights is transitive: attenuating twice is attenuating once. -/
theorem contains_trans {a b c : Rights} (hab : a.contains b = true) (hbc : b.contains c = true) :
    a.contains c = true := by
  rw [contains_iff] at hab hbc ⊢
  calc a.bits &&& c.bits = a.bits &&& (b.bits &&& c.bits) := by rw [hbc]
    _ = (a.bits &&& b.bits) &&& c.bits := (UInt32.and_assoc ..).symm
    _ = b.bits &&& c.bits := by rw [hab]
    _ = c.bits := hbc

end Rights

def fullRights : Rights := .READ ||| .WRITE ||| .GRANT ||| .DESTROY

end Muaddib
