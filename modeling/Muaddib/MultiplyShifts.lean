import Mathlib

/-! # Multiply-shift

Scaling the numbers below `N` down to the numbers below `n` by `z * n / N` hits every value equally
often, up to one. -/
namespace Muaddib.MultiplyShifts

variable {N n k : ℕ}

/-- The numbers that are scaled to `k` are an interval. -/
theorem scaled_iff (hn : 0 < n) (hN : 0 < N) (z : ℕ) :
    z * n / N = k ↔ (N * k) ⌈/⌉ n ≤ z ∧ z < (N * (k + 1)) ⌈/⌉ n := by
  have hlow : (N * k) ⌈/⌉ n ≤ z ↔ N * k ≤ z * n := by
    rw [ceilDiv_le_iff_le_mul hn, Nat.mul_comm n z]
  have hhigh : z < (N * (k + 1)) ⌈/⌉ n ↔ z * n < N * (k + 1) := by
    rw [← Nat.not_le, ceilDiv_le_iff_le_mul hn, Nat.mul_comm n z, Nat.not_le]
  rw [hlow, hhigh, Nat.div_eq_iff hN, Nat.mul_succ, Nat.mul_comm k N]
  omega

/-- The ceilings of consecutive multiples are the floor or the ceiling of the factor apart. -/
theorem ceil_succ (hn : 0 < n) : (N * (k + 1)) ⌈/⌉ n = (N * k) ⌈/⌉ n + N / n ∨
    (N * (k + 1)) ⌈/⌉ n = (N * k) ⌈/⌉ n + N ⌈/⌉ n := by
  have hsum : N * (k + 1) + n - 1 = (N * k + n - 1) + N := by
    rw [Nat.mul_succ]
    omega
  rw [Nat.ceilDiv_eq_add_pred_div, Nat.ceilDiv_eq_add_pred_div, hsum, Nat.add_div hn]
  split
  · next hcarry =>
    right
    have hrest : 0 < N % n := by
      have hmod := Nat.mod_lt (N * k + n - 1) hn
      omega
    have hceil : N ⌈/⌉ n = N / n + 1 := by
      rw [Nat.ceilDiv_eq_add_pred_div, Nat.add_sub_assoc hn, Nat.add_div hn,
        Nat.mod_eq_of_lt (Nat.sub_lt hn Nat.one_pos), Nat.div_eq_of_lt (Nat.sub_lt hn Nat.one_pos),
        if_pos (by omega)]
    rw [hceil]
    rfl
  · left
    rfl

/-- Each of the `n` values is hit `⌊N / n⌋` or `⌈N / n⌉` times. -/
theorem card_scaled (hN : 0 < N) (hk : k < n) :
    ((Finset.range N).filter fun z => z * n / N = k).card = N / n ∨
      ((Finset.range N).filter fun z => z * n / N = k).card = N ⌈/⌉ n := by
  have hn : 0 < n := Nat.zero_lt_of_lt hk
  have hend : (N * (k + 1)) ⌈/⌉ n ≤ N := by
    rw [ceilDiv_le_iff_le_mul hn, Nat.mul_comm n N]
    exact Nat.mul_le_mul_left N hk
  have hinterval : ((Finset.range N).filter fun z => z * n / N = k) =
      Finset.Ico ((N * k) ⌈/⌉ n) ((N * (k + 1)) ⌈/⌉ n) := by
    ext z
    rw [Finset.mem_filter, Finset.mem_range, Finset.mem_Ico, scaled_iff hn hN]
    exact and_iff_right_of_imp fun hz => hz.2.trans_le hend
  rw [hinterval, Nat.card_Ico]
  rcases ceil_succ (N := N) (k := k) hn with heq | heq
  · left
    rw [heq, Nat.add_sub_cancel_left]
  · right
    rw [heq, Nat.add_sub_cancel_left]

end Muaddib.MultiplyShifts
