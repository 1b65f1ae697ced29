import Muaddib.CausalGraphs

/-! # What the counters of an event graph count

The counter an event holds for a process is the number of that process's events that it is or looks
back to. A counter that every event raises is the length of the longest chain. -/
namespace Muaddib.CausalGraphs

variable {K : Type*} {h : List (Event K)} {i j : ℕ} {b : Event K}

namespace Timed
variable [DecidableEq K] (ht : Timed h)
include ht

end Timed

theorem path_congr {K' : Type*} {h' : List (Event K')}
    (hp : ∀ j : ℕ, h'[j]?.map Event.preds = h[j]?.map Event.preds) : Path h' = Path h := by
  have hedge : Edge h' = Edge h := by
    funext i j
    have hj := hp j
    apply propext
    constructor
    · rintro ⟨e, he, hi⟩
      rw [he, Option.map_some] at hj
      obtain ⟨c, hc, hpreds⟩ := Option.map_eq_some_iff.mp hj.symm
      exact ⟨c, hc, hpreds ▸ hi⟩
    · rintro ⟨e, he, hi⟩
      rw [he, Option.map_some] at hj
      obtain ⟨c, hc, hpreds⟩ := Option.map_eq_some_iff.mp hj
      exact ⟨c, hc, hpreds ▸ hi⟩
  rw [Path, hedge]
  rfl

/-- Every event holds for `q` one more than the maximum over what it looks back to. -/
structure Ranked (h : List (Event K)) (q : K) : Prop where
  earlier : ∀ (j : ℕ) (e : Event K), h[j]? = some e → ∀ i ∈ e.preds, i < j
  rank : ∀ (j : ℕ) (e : Event K), h[j]? = some e → e.time q = past h e.preds q + 1

namespace Ranked
variable {q : K}

theorem nil : Ranked ([] : List (Event K)) q := ⟨by simp, by simp⟩

theorem snoc (hr : Ranked h q) (e : Event K) (hpreds : ∀ i ∈ e.preds, i < h.length)
    (hrank : e.time q = past h e.preds q + 1) : Ranked (h ++ [e]) q := by
  have hget : ∀ (j : ℕ) (c : Event K), (h ++ [e])[j]? = some c →
      h[j]? = some c ∨ j = h.length ∧ c = e := by
    intro j c hc
    rcases Nat.lt_or_ge j h.length with hj | hj
    · rw [List.getElem?_append_left hj] at hc
      exact Or.inl hc
    · rw [List.getElem?_append_right hj, List.getElem?_singleton] at hc
      split at hc
      · exact Or.inr ⟨by omega, (Option.some.inj hc).symm⟩
      · cases hc
  refine ⟨fun j c hc i hi => ?_, fun j c hc => ?_⟩
  · rcases hget j c hc with hc | ⟨rfl, rfl⟩
    · exact hr.earlier j c hc i hi
    · exact hpreds i hi
  · rcases hget j c hc with hc | ⟨rfl, rfl⟩
    · have hj := (List.getElem?_eq_some_iff.mp hc).1
      rw [past_append [e] fun i hi => (hr.earlier j c hc i hi).trans hj]
      exact hr.rank j c hc
    · rw [past_append [c] hpreds]
      exact hrank

variable (hr : Ranked h q)
include hr

theorem edge_lt (hij : Edge h i j) : timeAt h i q < timeAt h j q := by
  obtain ⟨e, he, hi⟩ := hij
  rw [timeAt_of_getElem? he, hr.rank j e he]
  exact Nat.lt_succ_of_le (le_past hi q)

theorem path_lt (hij : Path h i j) : timeAt h i q < timeAt h j q := by
  induction hij with
  | single hij => exact hr.edge_lt hij
  | tail _ hjk ih => exact ih.trans (hr.edge_lt hjk)

theorem rank_le (hb : h[j]? = some b) : b.time q ≤ j + 1 := by
  induction j using Nat.strong_induction_on generalizing b with
  | h j ih =>
    rw [hr.rank j b hb]
    rcases Nat.eq_zero_or_pos (past h b.preds q) with hzero | hpos
    · omega
    · obtain ⟨k, hk, hmax⟩ := exists_past hpos
      have hkj := hr.earlier j b hb k hk
      cases hc : h[k]? with
      | none =>
        rw [timeAt, hc, Option.elim_none] at hmax
        omega
      | some c =>
        rw [timeAt_of_getElem? hc] at hmax
        have hle := ih k hkj hc
        omega

end Ranked
end Muaddib.CausalGraphs
