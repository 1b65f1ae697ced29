import Muaddib.BatchBytes
import Muaddib.MultiplyShifts

/-! # Draws below a bound

The output is a bijection of the state, so the draws below `n` are as uniform as the scaling of the
words to the numbers below `n`. -/
namespace Muaddib
open Function MultiplyShifts

namespace SplitMix64

def stateEquiv : SplitMix64 ≃ UInt64 := ⟨state, mk, fun _ => rfl, fun _ => rfl⟩

/-- The words are the numbers below `2 ^ 64`. -/
def wordEquiv : UInt64 ≃ Fin (2 ^ 64) :=
  ⟨UInt64.toFin, UInt64.ofFin, fun _ => rfl, fun _ => rfl⟩

instance : Finite SplitMix64 := .of_equiv _ (stateEquiv.trans wordEquiv).symm

/-- There are as many states as outputs, so every output comes from one state. -/
theorem nextU64_bijective : Bijective fun rng : SplitMix64 => rng.nextU64.1 := by
  have hinjective : Injective fun rng : SplitMix64 => stateEquiv.symm rng.nextU64.1 :=
    stateEquiv.symm.injective.comp nextU64_injective
  have hbijective := Finite.injective_iff_bijective.mp hinjective
  exact (stateEquiv.symm.bijective.of_comp_iff' _).mp hbijective

/-- What a draw depends on is the number that the output stands for. -/
theorem bijOn_toNat (P : ℕ → Prop) :
    Set.BijOn (fun rng : SplitMix64 => rng.nextU64.1.toNat) {rng | P rng.nextU64.1.toNat}
      {z | z < 2 ^ 64 ∧ P z} := by
  refine ⟨?_, ?_, ?_⟩
  · intro rng hrng
    exact ⟨rng.nextU64.1.toNat_lt, hrng⟩
  · intro rng _ rng' _ heq
    exact nextU64_bijective.injective (UInt64.toNat_inj.mp heq)
  · rintro z ⟨hz, hP⟩
    obtain ⟨rng, hrng⟩ := nextU64_bijective.surjective (UInt64.ofNat z)
    have hout : rng.nextU64.1.toNat = z := by
      have hword := congrArg UInt64.toNat hrng
      rwa [UInt64.toNat_ofNat_of_lt' hz] at hword
    refine ⟨rng, ?_, hout⟩
    change P rng.nextU64.1.toNat
    rwa [hout]

/-- The states whose next draw below `n` is `k`. -/
theorem ncard_below (n k : ℕ) : {rng : SplitMix64 | (rng.below n).1 = k}.ncard =
    ((Finset.range (2 ^ 64)).filter fun z => z * n / 2 ^ 64 = k).card := by
  have hcard := (bijOn_toNat fun z => z * n / 2 ^ 64 = k).ncard_eq
  have hset : {z | z < 2 ^ 64 ∧ z * n / 2 ^ 64 = k} =
      (((Finset.range (2 ^ 64)).filter fun z => z * n / 2 ^ 64 = k : Finset ℕ) : Set ℕ) := by
    ext z
    simp
  rw [hset, Set.ncard_coe_finset] at hcard
  exact hcard

/-- The product of a draw as the `u128` it is computed in. -/
def wideProduct (rng : SplitMix64) (n : ℕ) : BitVec 128 :=
  rng.nextU64.1.toBitVec.setWidth 128 * BitVec.ofNat 128 n

theorem toNat_wideProduct (rng : SplitMix64) {n : ℕ} (hn : n < 2 ^ 64) :
    rng.nextU64.1.toNat * n < 2 ^ 128 ∧ (rng.wideProduct n).toNat = rng.nextU64.1.toNat * n := by
  have hz := rng.nextU64.1.toNat_lt
  have hfits : rng.nextU64.1.toNat * n < 2 ^ 128 :=
    calc rng.nextU64.1.toNat * n < 2 ^ 64 * 2 ^ 64 := Nat.mul_lt_mul'' hz hn
      _ = 2 ^ 128 := by rw [← Nat.pow_add]
  refine ⟨hfits, ?_⟩
  have hword : rng.nextU64.1.toNat % 2 ^ 128 = rng.nextU64.1.toNat :=
    Nat.mod_eq_of_lt (hz.trans (by omega))
  have hbound : n % 2 ^ 128 = n := Nat.mod_eq_of_lt (hn.trans (by omega))
  rw [wideProduct, BitVec.toNat_mul, BitVec.toNat_setWidth, BitVec.toNat_ofNat, UInt64.toNat_toBitVec,
    hword, hbound, Nat.mod_eq_of_lt hfits]

/-- The product of a draw fits `u128`, the draw is in range, and of the `2 ^ 64` states each value
has the floor or the ceiling of `2 ^ 64 / n`. -/
theorem below_uniform (n : ℕ) (hpos : 1 ≤ n) (hn : n < 2 ^ 64) :
    (∀ rng : SplitMix64, rng.nextU64.1.toNat * n < 2 ^ 128 ∧
      (rng.wideProduct n >>> 64).toNat = (rng.below n).1) ∧
    (∀ rng : SplitMix64, (rng.below n).1 < n) ∧
    Bijective (fun rng : SplitMix64 => rng.nextU64.1) ∧ Nat.card SplitMix64 = 2 ^ 64 ∧
    ∀ k, k < n → {rng : SplitMix64 | (rng.below n).1 = k}.ncard = 2 ^ 64 / n ∨
      {rng : SplitMix64 | (rng.below n).1 = k}.ncard = 2 ^ 64 ⌈/⌉ n := by
  refine ⟨fun rng => ?_, fun rng => rng.below_lt hpos, nextU64_bijective, ?_, fun k hk => ?_⟩
  · obtain ⟨hfits, hproduct⟩ := rng.toNat_wideProduct hn
    refine ⟨hfits, ?_⟩
    rw [BitVec.toNat_ushiftRight, hproduct, Nat.shiftRight_eq_div_pow]
    rfl
  · rw [Nat.card_congr (stateEquiv.trans wordEquiv), Nat.card_fin]
  · rw [ncard_below]
    exact card_scaled (Nat.two_pow_pos 64) hk

/-- A draw below 100 is 7 in the floor or the ceiling of a hundredth of the states. -/
theorem below_uniform_hundred :
    {rng : SplitMix64 | (rng.below 100).1 = 7}.ncard = 184467440737095516 ∨
      {rng : SplitMix64 | (rng.below 100).1 = 7}.ncard = 184467440737095517 :=
  (below_uniform 100 (by decide) (by decide)).2.2.2.2 7 (by decide)

end SplitMix64
end Muaddib
