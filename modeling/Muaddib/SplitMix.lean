import Mathlib

/-! # The seeded pseudo-random stream -/
namespace Muaddib

structure SplitMix64 where
  state : UInt64
  deriving DecidableEq, Repr

namespace SplitMix64

def new (seed : UInt64) : SplitMix64 := ⟨seed⟩

def nextU64 (rng : SplitMix64) : UInt64 × SplitMix64 :=
  let state := rng.state + 0x9E3779B97F4A7C15
  let z := (state ^^^ (state >>> 30)) * 0xBF58476D1CE4E5B9
  let z := (z ^^^ (z >>> 27)) * 0x94D049BB133111EB
  (z ^^^ (z >>> 31), ⟨state⟩)

example : (new 0).nextU64.1 = 0xE220A8397B1DCDAF := by decide

/-- Multiply-shift into `0..n`. The source panics for `n = 0`; no caller passes it. -/
def below (rng : SplitMix64) (n : ℕ) : ℕ × SplitMix64 :=
  let (z, rng) := rng.nextU64
  (z.toNat * n / 2 ^ 64, rng)

def percent (rng : SplitMix64) (percent : UInt64) : Bool × SplitMix64 :=
  let (z, rng) := rng.nextU64
  (z % 100 < percent, rng)

/-- `u64::to_le_bytes`. -/
def toLeBytes (z : UInt64) : List UInt8 :=
  (List.range 8).map fun i => (z >>> UInt64.ofNat (8 * i)).toUInt8

/-- The next `n` outputs. -/
def words (rng : SplitMix64) : ℕ → List UInt64 × SplitMix64
  | 0 => ([], rng)
  | n + 1 =>
    let (z, rng) := rng.nextU64
    let (rest, rng) := rng.words n
    (z :: rest, rng)

/-- Overwrites the chunks of 8 bytes of a buffer, the last one perhaps shorter. Nothing of the
buffer is read but its length. -/
def fill (rng : SplitMix64) (buf : List UInt8) : List UInt8 × SplitMix64 :=
  let (zs, rng) := rng.words ((buf.length + 7) / 8)
  ((zs.flatMap toLeBytes).take buf.length, rng)

theorem below_lt (rng : SplitMix64) {n : ℕ} (h : 0 < n) : (rng.below n).1 < n := by
  have hz := (rng.nextU64).1.toNat_lt
  apply Nat.div_lt_of_lt_mul
  exact (Nat.mul_lt_mul_right h).mpr hz

theorem length_words (rng : SplitMix64) (n : ℕ) : (rng.words n).1.length = n := by
  induction n generalizing rng with
  | zero => rfl
  | succ n ih => exact congrArg (· + 1) (ih rng.nextU64.2)

@[simp] theorem length_fill (rng : SplitMix64) (buf : List UInt8) :
    (rng.fill buf).1.length = buf.length := by
  have hbytes : ∀ zs : List UInt64, (zs.flatMap toLeBytes).length = 8 * zs.length := by
    intro zs
    induction zs with
    | nil => rfl
    | cons z zs ih =>
      rw [List.flatMap_cons, List.length_append, ih, List.length_cons, toLeBytes, List.length_map,
        List.length_range]
      omega
  rw [fill, List.length_take, hbytes, length_words]
  omega

theorem fill_congr (rng : SplitMix64) {buf buf' : List UInt8} (h : buf.length = buf'.length) :
    rng.fill buf = rng.fill buf' := by
  rw [fill, fill, h]

end SplitMix64
end Muaddib
