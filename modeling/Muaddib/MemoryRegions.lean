import Muaddib.Capabilities

/-! # Memory regions named by capability

Region storage is kept apart from the kernel's table. Sizes, offsets and lengths are
`usize` values of a 64-bit target: naturals whose checked sum fails from `2 ^ 64` on. -/
namespace Muaddib
open Std (ExtTreeMap)

abbrev Bytes := List UInt8

inductive MemoryError where
  | unknownRegion (object : ObjectId)
  | outOfBounds (object : ObjectId) (offset len size : ℕ)
  | capability (error : CapError)
  deriving DecidableEq, Repr

/-- `usize::checked_add`. -/
def checkedAdd (a b : ℕ) : Option ℕ := if a + b < 2 ^ 64 then some (a + b) else none

/-- A closure over `&mut [u8]`: it returns a value and may rewrite the slice, whose length
it cannot change. -/
structure SliceUpdate (R : Type) where
  run : Bytes → R × Bytes
  length_eq : ∀ bytes, (run bytes).2.length = bytes.length

structure RegionRegistry where
  regions : ExtTreeMap ObjectId Bytes
  deriving DecidableEq

namespace RegionRegistry

def new : RegionRegistry := ⟨∅⟩

/-- `vec![0; size]` panics above `isize::MAX`, and by then the kernel has made the object. -/
def newRegion (reg : RegionRegistry) (kernel : Kernel) (size : ℕ) :
    Except (Stop Empty) Capability × RegionRegistry × Kernel :=
  let (cap, kernel) := kernel.newObject (.READ ||| .WRITE ||| .GRANT ||| .DESTROY)
  if size < 2 ^ 63 then
    (.ok cap, ⟨reg.regions.insert cap.object (List.replicate size 0)⟩, kernel)
  else (.error (.panic "capacity overflow"), reg, kernel)

theorem newRegion_of_lt {reg : RegionRegistry} {kernel : Kernel} {size : ℕ} (h : size < 2 ^ 63) :
    reg.newRegion kernel size = (.ok (kernel.newObject fullRights).1,
      ⟨reg.regions.insert ⟨kernel.nextId⟩ (List.replicate size 0)⟩,
      (kernel.newObject fullRights).2) := if_pos h

theorem newRegion_of_le {reg : RegionRegistry} {kernel : Kernel} {size : ℕ} (h : 2 ^ 63 ≤ size) :
    reg.newRegion kernel size = (.error (.panic "capacity overflow"), reg,
      (kernel.newObject fullRights).2) := if_neg (not_lt.mpr h)

/-- Authority first, then the region, then the range; on success the bytes and the range. -/
def checkedRange (reg : RegionRegistry) (kernel : Kernel) (cap : Capability) (required : Rights)
    (offset len : ℕ) : Except MemoryError (ℕ × ℕ) :=
  match kernel.check cap required with
  | .error e => .error (.capability e)
  | .ok () =>
    match reg.regions[cap.object]? with
    | none => .error (.unknownRegion cap.object)
    | some bytes =>
      match checkedAdd offset len with
      | some stop =>
        if stop ≤ bytes.length then .ok (offset, stop)
        else .error (.outOfBounds cap.object offset len bytes.length)
      | none => .error (.outOfBounds cap.object offset len bytes.length)

/-- The slice `bytes[start..stop]`. -/
def slice (bytes : Bytes) (start stop : ℕ) : Bytes := (bytes.drop start).take (stop - start)

/-- `bytes[start..].copy_from_slice(data)` for `data` that fits. -/
def overwrite (bytes : Bytes) (start : ℕ) (data : Bytes) : Bytes :=
  bytes.take start ++ data ++ bytes.drop (start + data.length)

def read (reg : RegionRegistry) (kernel : Kernel) (cap : Capability) (offset len : ℕ) :
    Except (Stop MemoryError) Bytes :=
  match reg.checkedRange kernel cap .READ offset len with
  | .error e => .error (.err e)
  | .ok (start, stop) =>
    match reg.regions[cap.object]? with
    | none => .error (.panic "no entry found for key")
    | some bytes => .ok (slice bytes start stop)

def write (reg : RegionRegistry) (kernel : Kernel) (cap : Capability) (offset : ℕ)
    (data : Bytes) : Except (Stop MemoryError) Unit × RegionRegistry :=
  match reg.checkedRange kernel cap .WRITE offset data.length with
  | .error e => (.error (.err e), reg)
  | .ok (start, _) =>
    match reg.regions[cap.object]? with
    | none => (.error (.panic "checked_range confirmed the region exists"), reg)
    | some bytes => (.ok (), ⟨reg.regions.insert cap.object (overwrite bytes start data)⟩)

def inspect {R : Type} (reg : RegionRegistry) (kernel : Kernel) (cap : Capability)
    (f : Bytes → R) : Except MemoryError R :=
  match kernel.check cap .READ with
  | .error e => .error (.capability e)
  | .ok () =>
    match reg.regions[cap.object]? with
    | none => .error (.unknownRegion cap.object)
    | some bytes => .ok (f bytes)

def update {R : Type} (reg : RegionRegistry) (kernel : Kernel) (cap : Capability)
    (f : SliceUpdate R) : Except MemoryError R × RegionRegistry :=
  match kernel.check cap (.READ ||| .WRITE) with
  | .error e => (.error (.capability e), reg)
  | .ok () =>
    match reg.regions[cap.object]? with
    | none => (.error (.unknownRegion cap.object), reg)
    | some bytes =>
      let (result, bytes) := f.run bytes
      (.ok result, ⟨reg.regions.insert cap.object bytes⟩)

def size (reg : RegionRegistry) (kernel : Kernel) (cap : Capability) :
    Except (Stop MemoryError) ℕ :=
  match reg.checkedRange kernel cap .NONE 0 0 with
  | .error e => .error (.err e)
  | .ok _ =>
    match reg.regions[cap.object]? with
    | none => .error (.panic "no entry found for key")
    | some bytes => .ok bytes.length

def destroyRegion (reg : RegionRegistry) (kernel : Kernel) (cap : Capability) :
    Except MemoryError Unit × RegionRegistry × Kernel :=
  match kernel.check cap .DESTROY with
  | .error e => (.error (.capability e), reg, kernel)
  | .ok () =>
    if reg.regions.contains cap.object then
      match kernel.destroyObject cap with
      | (.error e, kernel) => (.error (.capability e), reg, kernel)
      | (.ok (), kernel) => (.ok (), ⟨reg.regions.erase cap.object⟩, kernel)
    else (.error (.unknownRegion cap.object), reg, kernel)

/-- Drops the bytes of every region whose kernel object is gone and counts them. -/
def reclaim (reg : RegionRegistry) (kernel : Kernel) : ℕ × RegionRegistry :=
  let kept := reg.regions.filter fun object _ => kernel.objectExists object
  (reg.regions.size - kept.size, ⟨kept⟩)

def regionCount (reg : RegionRegistry) : ℕ := reg.regions.size

theorem length_overwrite (bytes : Bytes) (start : ℕ) (data : Bytes)
    (h : start + data.length ≤ bytes.length) : (overwrite bytes start data).length = bytes.length := by
  simp only [overwrite, List.length_append, List.length_take, List.length_drop]
  omega

/-- The bytes after a write: the data in its range, and the old bytes elsewhere. -/
theorem getElem?_overwrite (bytes : Bytes) (start : ℕ) (data : Bytes)
    (h : start + data.length ≤ bytes.length) (i : ℕ) : (overwrite bytes start data)[i]? =
      if start ≤ i ∧ i < start + data.length then data[i - start]? else bytes[i]? := by
  have hlen : (bytes.take start).length = start := by
    rw [List.length_take]
    omega
  rw [overwrite, List.append_assoc]
  rcases Nat.lt_or_ge i start with hlt | hge
  · rw [List.getElem?_append_left (by omega), List.getElem?_take_of_lt hlt, if_neg (by omega)]
  · rw [List.getElem?_append_right (by omega), hlen]
    rcases Nat.lt_or_ge i (start + data.length) with hin | hout
    · rw [List.getElem?_append_left (by omega), if_pos ⟨hge, hin⟩]
    · rw [List.getElem?_append_right (by omega), if_neg (by omega), List.getElem?_drop]
      congr 1
      omega

section Cases
variable (reg : RegionRegistry) (k : Kernel) (cap : Capability)

/-- A range is granted to a live capability with the right, inside the region's bytes. -/
theorem checkedRange_cases (r : Rights) (offset len : ℕ) :
    (∃ e, reg.checkedRange k cap r offset len = .error e) ∨
      ∃ bytes, k.check cap r = .ok () ∧ reg.regions[cap.object]? = some bytes ∧
        offset + len ≤ bytes.length ∧
        reg.checkedRange k cap r offset len = .ok (offset, offset + len) := by
  cases hc : k.check cap r with
  | error e => exact Or.inl ⟨.capability e, by simp [checkedRange, hc]⟩
  | ok u =>
    cases hr : reg.regions[cap.object]? with
    | none => exact Or.inl ⟨.unknownRegion cap.object, by simp [checkedRange, hc, hr]⟩
    | some bytes =>
      by_cases hfits : offset + len < 2 ^ 64
      · have hadd : checkedAdd offset len = some (offset + len) := if_pos hfits
        by_cases hlen : offset + len ≤ bytes.length
        · exact Or.inr ⟨bytes, rfl, rfl, hlen, by simp [checkedRange, hc, hr, hadd, hlen]⟩
        · exact Or.inl ⟨.outOfBounds cap.object offset len bytes.length,
            by simp [checkedRange, hc, hr, hadd, hlen]⟩
      · have hadd : checkedAdd offset len = none := if_neg hfits
        exact Or.inl ⟨.outOfBounds cap.object offset len bytes.length,
          by simp [checkedRange, hc, hr, hadd]⟩

theorem read_cases (offset len : ℕ) : (∃ e, reg.read k cap offset len = .error (.err e)) ∨
    ∃ bytes, k.check cap .READ = .ok () ∧ reg.regions[cap.object]? = some bytes ∧
      offset + len ≤ bytes.length ∧
      reg.read k cap offset len = .ok (slice bytes offset (offset + len)) := by
  rcases reg.checkedRange_cases k cap .READ offset len with ⟨e, he⟩ | ⟨bytes, hc, hr, hlen, hok⟩
  · exact Or.inl ⟨e, by simp [read, he]⟩
  · exact Or.inr ⟨bytes, hc, hr, hlen, by simp [read, hok, hr]⟩

theorem write_cases (offset : ℕ) (data : Bytes) :
    (∃ e, reg.write k cap offset data = (.error (.err e), reg)) ∨
    ∃ bytes, k.check cap .WRITE = .ok () ∧ reg.regions[cap.object]? = some bytes ∧
      offset + data.length ≤ bytes.length ∧ reg.write k cap offset data =
        (.ok (), ⟨reg.regions.insert cap.object (overwrite bytes offset data)⟩) := by
  rcases reg.checkedRange_cases k cap .WRITE offset data.length with
    ⟨e, he⟩ | ⟨bytes, hc, hr, hlen, hok⟩
  · exact Or.inl ⟨e, by simp [write, he]⟩
  · exact Or.inr ⟨bytes, hc, hr, hlen, by simp [write, hok, hr]⟩

theorem inspect_cases {R : Type} (f : Bytes → R) : (∃ e, reg.inspect k cap f = .error e) ∨
    ∃ bytes, k.check cap .READ = .ok () ∧ reg.regions[cap.object]? = some bytes ∧
      reg.inspect k cap f = .ok (f bytes) := by
  cases hc : k.check cap .READ with
  | error e => exact Or.inl ⟨.capability e, by simp [inspect, hc]⟩
  | ok u =>
    cases hr : reg.regions[cap.object]? with
    | none => exact Or.inl ⟨.unknownRegion cap.object, by simp [inspect, hc, hr]⟩
    | some bytes => exact Or.inr ⟨bytes, rfl, rfl, by simp [inspect, hc, hr]⟩

theorem update_cases {R : Type} (f : SliceUpdate R) :
    (∃ e, reg.update k cap f = (.error e, reg)) ∨
    ∃ bytes, k.check cap (.READ ||| .WRITE) = .ok () ∧ reg.regions[cap.object]? = some bytes ∧
      reg.update k cap f =
        (.ok (f.run bytes).1, ⟨reg.regions.insert cap.object (f.run bytes).2⟩) := by
  cases hc : k.check cap (.READ ||| .WRITE) with
  | error e => exact Or.inl ⟨.capability e, by simp [update, hc]⟩
  | ok u =>
    cases hr : reg.regions[cap.object]? with
    | none => exact Or.inl ⟨.unknownRegion cap.object, by simp [update, hc, hr]⟩
    | some bytes => exact Or.inr ⟨bytes, rfl, rfl, by simp [update, hc, hr]⟩

theorem size_cases : (∃ e, reg.size k cap = .error (.err e)) ∨
    ∃ bytes, k.check cap .NONE = .ok () ∧ reg.regions[cap.object]? = some bytes ∧
      reg.size k cap = .ok bytes.length := by
  rcases reg.checkedRange_cases k cap .NONE 0 0 with ⟨e, he⟩ | ⟨bytes, hc, hr, -, hok⟩
  · exact Or.inl ⟨e, by simp [size, he]⟩
  · exact Or.inr ⟨bytes, hc, hr, by simp [size, hok, hr]⟩

theorem destroyRegion_cases : (∃ e, reg.destroyRegion k cap = (.error e, reg, k)) ∨
    k.check cap .DESTROY = .ok () ∧ cap.object ∈ reg.regions ∧
      reg.destroyRegion k cap = (.ok (), ⟨reg.regions.erase cap.object⟩, k.remove cap.object) := by
  rcases k.check_cases cap .DESTROY with ⟨hc, hl, hd⟩ | ⟨e, hc⟩
  · by_cases hr : cap.object ∈ reg.regions
    · exact Or.inr ⟨hc, hr, by simp [destroyRegion, hc, hr, Kernel.destroyObject_of_live hl hd]⟩
    · exact Or.inl ⟨.unknownRegion cap.object, by simp [destroyRegion, hc, hr]⟩
  · exact Or.inl ⟨.capability e, by simp [destroyRegion, hc]⟩

end Cases

end RegionRegistry
end Muaddib
