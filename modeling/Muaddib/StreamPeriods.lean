import Muaddib.UniformDraws

/-! # The period of the stream

The state grows by an odd constant, so every state is met once before the first one comes back, and
every word is drawn once. -/
namespace Muaddib
open Function

namespace SplitMix64

/-- The stream after `n` more words. -/
def advance (rng : SplitMix64) (n : ℕ) : SplitMix64 :=
  ⟨rng.state + UInt64.ofNat n * 0x9E3779B97F4A7C15⟩

@[simp] theorem advance_zero (rng : SplitMix64) : rng.advance 0 = rng := by
  have hzero : UInt64.ofNat 0 * 0x9E3779B97F4A7C15 = 0 := by decide
  rw [advance, hzero, UInt64.add_zero]

@[simp] theorem advance_advance (rng : SplitMix64) (m n : ℕ) :
    (rng.advance m).advance n = rng.advance (m + n) := by
  rw [advance, advance, advance, UInt64.ofNat_add, UInt64.add_mul, UInt64.add_assoc]

theorem nextU64_snd (rng : SplitMix64) : rng.nextU64.2 = rng.advance 1 := by
  rw [advance, UInt64.ofNat_one, UInt64.one_mul]
  rfl

/-- The stream comes to every state within `2 ^ 64` words. -/
theorem exists_advance (rng target : SplitMix64) : ∃ n < 2 ^ 64, rng.advance n = target := by
  have hinverse : (0xF1DE83E19937733D : UInt64) * 0x9E3779B97F4A7C15 = 1 := by decide
  refine ⟨((target.state - rng.state) * 0xF1DE83E19937733D).toNat, UInt64.toNat_lt _, ?_⟩
  rw [advance, UInt64.ofNat_toNat, UInt64.mul_assoc, hinverse, UInt64.mul_one, UInt64.add_comm,
    UInt64.sub_add_cancel]

theorem advance_inj (rng : SplitMix64) {m n : ℕ} (hm : m < 2 ^ 64) (hn : n < 2 ^ 64) :
    rng.advance m = rng.advance n ↔ m = n := by
  have hinverse : (0x9E3779B97F4A7C15 : UInt64) * 0xF1DE83E19937733D = 1 := by decide
  refine ⟨fun h => ?_, congrArg rng.advance⟩
  have hstate := congrArg state h
  rw [advance, advance, UInt64.add_comm, UInt64.add_comm rng.state] at hstate
  have hcount := WordMixing.mul_injective hinverse (WordMixing.add_injective rng.state hstate)
  have hnat := congrArg UInt64.toNat hcount
  rwa [UInt64.toNat_ofNat_of_lt' hm, UInt64.toNat_ofNat_of_lt' hn] at hnat

/-- The state comes back after `2 ^ 64` words. -/
theorem advance_period (rng : SplitMix64) {n : ℕ} (hn : n = 2 ^ 64) : rng.advance n = rng := by
  have hword : UInt64.ofNat n = 0 := by
    apply UInt64.toNat_inj.mp
    rw [UInt64.toNat_ofNat', hn, Nat.mod_self]
    rfl
  rw [advance, hword, UInt64.zero_mul, UInt64.add_zero]

theorem words_succ (rng : SplitMix64) (n : ℕ) : rng.words (n + 1) =
    (rng.nextU64.1 :: ((rng.advance 1).words n).1, ((rng.advance 1).words n).2) := by
  rw [← nextU64_snd]
  rfl

theorem words_fst (rng : SplitMix64) (n : ℕ) :
    (rng.words n).1 = (List.range n).map fun i => (rng.advance i).nextU64.1 := by
  induction n generalizing rng with
  | zero => rfl
  | succ n ih =>
    rw [words_succ, ih, List.range_succ_eq_map, List.map_cons, List.map_map, advance_zero]
    refine congrArg (rng.nextU64.1 :: ·) (List.map_congr_left fun i _ => ?_)
    rw [comp_apply, advance_advance, Nat.add_comm]

theorem words_snd (rng : SplitMix64) (n : ℕ) : (rng.words n).2 = rng.advance n := by
  induction n generalizing rng with
  | zero => rw [words, advance_zero]
  | succ n ih => rw [words_succ, ih, advance_advance, Nat.add_comm]

theorem words_period (rng : SplitMix64) {n : ℕ} (hn : n = 2 ^ 64) :
    (∀ z, (rng.words n).1.count z = 1) ∧ (rng.words n).2 = rng := by
  refine ⟨fun z => ?_, (rng.words_snd n).trans (rng.advance_period hn)⟩
  rw [words_fst]
  apply List.count_eq_one_of_mem
  · apply List.Nodup.map_on _ List.nodup_range
    intro i hi j hj heq
    rw [List.mem_range, hn] at hi hj
    exact (rng.advance_inj hi hj).mp (nextU64_bijective.injective heq)
  · obtain ⟨target, htarget⟩ := nextU64_bijective.surjective z
    obtain ⟨i, hi, hstate⟩ := rng.exists_advance target
    rw [List.mem_map]
    refine ⟨i, List.mem_range.mpr (hn ▸ hi), ?_⟩
    rw [hstate]
    exact htarget

/-- In `2 ^ 64` draws every word comes once, and the stream is where it began. -/
theorem words_full_period (rng : SplitMix64) :
    (∀ z, (rng.words (2 ^ 64)).1.count z = 1) ∧ (rng.words (2 ^ 64)).2 = rng := rng.words_period rfl

end SplitMix64
end Muaddib
