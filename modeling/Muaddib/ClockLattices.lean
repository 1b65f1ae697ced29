import Mathlib
import Muaddib.LogicalClocks

/-! # Vector clocks as a lattice

A clock stands for a function from the processes to their counters. The order of clocks is the order of
the functions, merging is their supremum, and what the map stores besides makes no difference. -/
namespace Muaddib
open Std (TransOrd LawfulEqOrd)

def Causality.swap : Causality → Causality
  | .before => .after
  | .after => .before
  | .equal => .equal
  | .concurrent => .concurrent

namespace VectorClock
variable {K : Type} [Ord K] [TransOrd K] [LawfulEqOrd K]

/-- The source's `PartialOrd`: nothing for concurrent timestamps. -/
def partialCmp (v other : VectorClock K) : Option Ordering :=
  match v.compare other with
  | .before => some .lt
  | .after => some .gt
  | .equal => some .eq
  | .concurrent => none

/-- `a <= b`, as Rust derives it from `partial_cmp`. -/
def AtMost (v other : VectorClock K) : Prop :=
  v.partialCmp other = some .lt ∨ v.partialCmp other = some .eq

def counters (v : VectorClock K) : K → ℕ := fun p => (v.get p).toNat

section Counters
variable (a b : VectorClock K) (p : K)

omit [LawfulEqOrd K] in
theorem counters_le_iff : a.counters ≤ b.counters ↔ ∀ q, a.get q ≤ b.get q :=
  forall_congr' fun _ => UInt64.le_iff_toNat_le.symm

omit [LawfulEqOrd K] in
theorem counters_eq_iff : a.counters = b.counters ↔ ∀ q, a.get q = b.get q := by
  rw [funext_iff]
  exact forall_congr' fun _ => UInt64.toNat_inj

theorem counters_merge : (a.merge b).counters = a.counters ⊔ b.counters := by
  funext q
  rw [counters, get_merge, MachineCounters.toNat_max]
  rfl

theorem counters_tick [DecidableEq K] (hp : (a.get p).toNat < 2 ^ 64 - 1) :
    (a.tick p).counters = Function.update a.counters p (a.counters p + 1) := by
  funext q
  rw [counters, get_tick, Function.update_apply]
  by_cases hq : q = p
  · subst hq
    rw [if_pos rfl, if_pos rfl]
    exact MachineCounters.toNat_add_one (by omega)
  · rw [if_neg (Ne.symm hq), if_neg hq]
    rfl

theorem compare_eq_before : a.compare b = .before ↔ a.counters < b.counters := by
  rw [compare_eq_before_iff, lt_iff_le_not_ge, counters_le_iff, counters_le_iff]

theorem compare_eq_after : a.compare b = .after ↔ b.counters < a.counters := by
  rw [compare_eq_after_iff, lt_iff_le_not_ge, counters_le_iff, counters_le_iff]

theorem compare_eq_equal : a.compare b = .equal ↔ a.counters = b.counters := by
  rw [compare_eq_equal_iff, le_antisymm_iff, counters_le_iff, counters_le_iff]

theorem atMost_iff : a.AtMost b ↔ a.counters ≤ b.counters := by
  rw [le_iff_lt_or_eq, ← compare_eq_before, ← compare_eq_equal, AtMost, partialCmp]
  cases a.compare b <;> simp

theorem eq_eq_true : a.eq b = true ↔ a.counters = b.counters := by
  rw [eq_iff, counters_eq_iff]

end Counters

section Laws
variable (a b c : VectorClock K)

theorem compare_self : a.compare a = .equal := (compare_eq_equal a a).mpr rfl

theorem compare_swap : b.compare a = (a.compare b).swap := by
  cases h : a.compare b with
  | before => exact (compare_eq_after b a).mpr ((compare_eq_before a b).mp h)
  | after => exact (compare_eq_before b a).mpr ((compare_eq_after a b).mp h)
  | equal => exact (compare_eq_equal b a).mpr ((compare_eq_equal a b).mp h).symm
  | concurrent =>
    rw [compare_eq_concurrent_iff] at h
    exact (compare_eq_concurrent_iff b a).mpr h.symm

variable {a b c}

theorem compare_trans_before (h : a.compare b = .before)
    (h' : b.compare c = .before ∨ b.compare c = .equal) : a.compare c = .before := by
  rw [compare_eq_before] at h ⊢
  rw [compare_eq_before, compare_eq_equal, ← le_iff_lt_or_eq] at h'
  exact h.trans_le h'

theorem compare_congr (h : a.compare b = .equal) : a.compare c = b.compare c := by
  rw [compare_eq_equal] at h
  cases hb : b.compare c with
  | before =>
    rw [compare_eq_before] at hb ⊢
    rwa [h]
  | after =>
    rw [compare_eq_after] at hb ⊢
    rwa [h]
  | equal =>
    rw [compare_eq_equal] at hb ⊢
    rwa [h]
  | concurrent =>
    rw [compare_eq_concurrent_iff, ← counters_le_iff, ← counters_le_iff] at hb ⊢
    rwa [h]

theorem compare_tick {p : K} (hp : (a.get p).toNat < 2 ^ 64 - 1) : a.compare (a.tick p) = .before ∧
    (a.tick p).get p = a.get p + 1 ∧ ∀ q, q ≠ p → (a.tick p).get q = a.get q := by
  classical
  refine ⟨?_, by rw [get_tick, if_pos rfl], fun q hq => by rw [get_tick, if_neg hq.symm]⟩
  rw [compare_eq_before, counters_tick a p hp]
  exact lt_update_self_iff.mpr (Nat.lt_succ_self _)

end Laws

/-- Comparison is a partial order up to equal counters, merging is its supremum, and a tick goes
strictly up. -/
theorem vector_clocks_form_semilattice (a b c : VectorClock K) :
    (a.compare a = .equal ∧ b.compare a = (a.compare b).swap ∧
      (a.compare b = .before → b.compare c = .before → a.compare c = .before) ∧
      (a.compare b = .before → b.compare c = .equal → a.compare c = .before) ∧
      (a.compare b = .equal → b.compare c = .before → a.compare c = .before) ∧
      (a.compare b = .equal → b.compare c = .equal → a.compare c = .equal)) ∧
    (a.AtMost a ∧ (a.AtMost b → b.AtMost a → a.partialCmp b = some .eq) ∧
      (a.AtMost b → b.AtMost c → a.AtMost c) ∧
      (a.partialCmp b = some .eq ↔ ∀ p, a.get p = b.get p)) ∧
    (a.AtMost (a.merge b) ∧ b.AtMost (a.merge b) ∧
      (a.AtMost c → b.AtMost c → (a.merge b).AtMost c)) ∧
    ((a.merge b).eq (b.merge a) = true ∧
      ((a.merge b).merge c).eq (a.merge (b.merge c)) = true ∧ (a.merge a).eq a = true) ∧
    ∀ p, (a.get p).toNat < 2 ^ 64 - 1 → a.compare (a.tick p) = .before ∧
      (a.tick p).get p = a.get p + 1 ∧ ∀ q, q ≠ p → (a.tick p).get q = a.get q := by
  have heq : a.partialCmp b = some .eq ↔ a.counters = b.counters := by
    rw [← compare_eq_equal, partialCmp]
    cases a.compare b <;> simp
  simp only [atMost_iff, eq_eq_true, heq, counters_merge]
  refine ⟨⟨compare_self a, compare_swap a b, fun h h' => compare_trans_before h (Or.inl h'),
    fun h h' => compare_trans_before h (Or.inr h'), fun h h' => (compare_congr h).trans h',
    fun h h' => (compare_congr h).trans h'⟩, ⟨le_rfl, le_antisymm, le_trans, counters_eq_iff a b⟩,
    ⟨le_sup_left, le_sup_right, sup_le⟩, ⟨sup_comm _ _, sup_assoc _ _ _, sup_idem _⟩, fun p hp =>
    compare_tick hp⟩

theorem vector_clocks_with_explicit_zero :
    ((⟨{(3, 0), (5, 2)}⟩ : VectorClock ℕ).merge ⟨{(5, 1)}⟩).eq
      ((⟨{(5, 1)}⟩ : VectorClock ℕ).merge ⟨{(3, 0), (5, 2)}⟩) = true :=
  (vector_clocks_form_semilattice (⟨{(3, 0), (5, 2)}⟩ : VectorClock ℕ) ⟨{(5, 1)}⟩ new).2.2.2.1.1

end VectorClock
end Muaddib
