import Mathlib

/-! # Steps that mix machine words without losing anything

Multiplication by a unit, the exclusive or of a word with itself shifted, and folds of such steps are
injective; and so is splitting a word into its bytes. -/
namespace Muaddib.WordMixing
open Function

theorem mul_injective {a b : UInt64} (h : a * b = 1) : Injective fun x : UInt64 => x * a := by
  intro x y hxy
  have hb := congrArg (· * b) hxy
  simpa only [UInt64.mul_assoc, h, UInt64.mul_one] using hb

theorem xor_injective (k : UInt64) : Injective fun x : UInt64 => x ^^^ k := by
  intro x y hxy
  have hk := congrArg (· ^^^ k) hxy
  simpa only [UInt64.xor_assoc, UInt64.xor_self, UInt64.xor_zero] using hk

theorem add_injective (k : UInt64) : Injective fun x : UInt64 => x + k := by
  intro x y hxy
  have hk := congrArg (· - k) hxy
  simpa only [UInt64.add_sub_cancel] using hk

theorem xor_ushiftRight_injective {w k : ℕ} (hk : 0 < k) :
    Injective fun x : BitVec w => x ^^^ (x >>> k) := by
  intro x y hxy
  have hbits : ∀ n i, w - i ≤ n → x.getLsbD i = y.getLsbD i := by
    intro n
    induction n with
    | zero =>
      intro i hi
      rw [BitVec.getLsbD_of_ge x i (by omega), BitVec.getLsbD_of_ge y i (by omega)]
    | succ n ih =>
      intro i hi
      by_cases hlt : i < w
      · have hbit := congrArg (fun z => z.getLsbD i) hxy
        simp only [BitVec.getLsbD_xor, BitVec.getLsbD_ushiftRight] at hbit
        rw [ih (k + i) (by omega)] at hbit
        exact Bool.xor_left_inj.mp hbit
      · exact ih i (by omega)
  exact BitVec.eq_of_getLsbD_eq fun i _ => hbits (w - i) i le_rfl

theorem xor_shiftRight_injective {k : UInt64} (hk : 0 < k.toNat % 64) :
    Injective fun x : UInt64 => x ^^^ (x >>> k) := by
  intro x y hxy
  have hvec := congrArg UInt64.toBitVec hxy
  simp only [UInt64.toBitVec_xor, UInt64.toBitVec_shiftRight, BitVec.ushiftRight_eq',
    BitVec.toNat_umod] at hvec
  exact UInt64.toBitVec_inj.mp (xor_ushiftRight_injective hk hvec)

section Folds
variable {σ β : Type*} {step : σ → β → σ}

theorem foldl_injective (hstate : ∀ b, Injective fun s => step s b) (l : List β) :
    Injective fun s => l.foldl step s := by
  induction l with
  | nil => exact injective_id
  | cons b l ih => exact ih.comp (hstate b)

theorem foldl_ne_of_one_differs (hstate : ∀ b, Injective fun s => step s b)
    (hinput : ∀ s, Injective (step s)) {x y : List β} {i : ℕ} (hlen : x.length = y.length)
    (hdiffer : x[i]? ≠ y[i]?) (hsame : ∀ j, j ≠ i → x[j]? = y[j]?) (s : σ) :
    x.foldl step s ≠ y.foldl step s := by
  induction x generalizing y i s with
  | nil =>
    obtain rfl := List.eq_nil_of_length_eq_zero hlen.symm
    exact absurd rfl hdiffer
  | cons b x ih =>
    cases y with
    | nil => cases hlen
    | cons c y =>
      rw [List.foldl_cons, List.foldl_cons]
      cases i with
      | zero =>
        have htail : x = y := List.ext_getElem? fun j => hsame (j + 1) (Nat.succ_ne_zero j)
        have hbc : b ≠ c := fun heq => hdiffer (congrArg some heq)
        subst htail
        exact fun heq => hbc (hinput s (foldl_injective hstate x heq))
      | succ i =>
        obtain rfl : b = c := Option.some.inj (hsame 0 (Nat.succ_ne_zero i).symm)
        exact ih (Nat.succ.inj hlen) hdiffer (fun j hj => hsame (j + 1) (by omega)) (step s b)

end Folds

theorem toUInt64_injective : Injective UInt8.toUInt64 := by
  intro b c h
  have hnat := congrArg UInt64.toNat h
  simp only [UInt8.toNat_toUInt64] at hnat
  exact UInt8.toNat_inj.mp hnat

theorem eq_of_bytes {x y : UInt64} (h : ∀ i, i < 8 →
    (x >>> UInt64.ofNat (8 * i)).toUInt8 = (y >>> UInt64.ofNat (8 * i)).toUInt8) : x = y := by
  refine UInt64.toBitVec_inj.mp (BitVec.eq_of_getLsbD_eq fun j hj => ?_)
  have hbyte := congrArg (fun b => b.toBitVec.getLsbD (j % 8)) (h (j / 8) (by omega))
  have hshift : 8 * (j / 8) % 64 = 8 * (j / 8) := Nat.mod_eq_of_lt (by omega)
  have hj' : 8 * (j / 8) + j % 8 = j := Nat.div_add_mod j 8
  have hlow : j % 8 < 8 := Nat.mod_lt j (by omega)
  simpa [BitVec.getLsbD_setWidth, hshift, hj', hlow] using hbyte

end Muaddib.WordMixing
