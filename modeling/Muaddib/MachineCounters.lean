import Mathlib

/-! # Wrapping machine counters

The 64-bit counters of the source wrap in a release build. These lemmas say when an
increment is the one of the natural numbers, so that a bound on the length of a run
turns a machine counter into a count. -/
namespace Muaddib.MachineCounters

theorem toNat_max (a b : UInt64) : (max a b).toNat = max a.toNat b.toNat := by
  change (if a ≤ b then b else a).toNat = _
  split
  · next h => exact (Nat.max_eq_right (UInt64.le_iff_toNat_le.mp h)).symm
  · next h =>
    rw [UInt64.le_iff_toNat_le] at h
    exact (Nat.max_eq_left (Nat.le_of_not_le h)).symm

theorem toNat_add_one {a : UInt64} (h : a.toNat + 1 < 2 ^ 64) : (a + 1).toNat = a.toNat + 1 := by
  rw [UInt64.toNat_add]
  exact Nat.mod_eq_of_lt h

theorem toNat_add_one_of_ne_zero {a : UInt64} (h : a + 1 ≠ 0) : (a + 1).toNat = a.toNat + 1 := by
  apply toNat_add_one
  by_contra hge
  apply h
  have ha := a.toNat_lt
  rw [← UInt64.toNat_inj, UInt64.toNat_add]
  have hwrap : a.toNat + (1 : UInt64).toNat = 2 ^ 64 := by
    change a.toNat + 1 = 2 ^ 64
    omega
  rw [hwrap]
  rfl

theorem max_comm (a b : UInt64) : max a b = max b a := by
  simp only [← UInt64.toNat_inj, toNat_max, Nat.max_comm]

@[simp] theorem max_zero (a : UInt64) : max a 0 = a := by
  simp [← UInt64.toNat_inj, toNat_max]

@[simp] theorem zero_max (a : UInt64) : max 0 a = a := by rw [max_comm, max_zero]

/-- A counter that counts to `n` holds `n`, as long as `n` fits. -/
theorem ofNat_inj {m n : ℕ} (hm : m < 2 ^ 64) (hn : n < 2 ^ 64)
    (h : UInt64.ofNat m = UInt64.ofNat n) : m = n := by
  have h' := congrArg UInt64.toNat h
  rwa [UInt64.toNat_ofNat', UInt64.toNat_ofNat', Nat.mod_eq_of_lt hm, Nat.mod_eq_of_lt hn] at h'

end Muaddib.MachineCounters
