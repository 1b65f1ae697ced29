import Mathlib

/-! # Tokens in places

Tokens are numbered in the order they are created, and every place holds a list of them. A
system loses and duplicates nothing when each token is in one place, once. That is kept by the
two things a system may do: move some tokens from one place to another, and create the next
token in a place. -/
namespace Muaddib.PlacedTokens

variable {P : Type*} {bag bag' : P → List ℕ} {next : ℕ} {p q : P}

/-- Each of the first `next` tokens occurs once, in one place. -/
structure Exact (bag : P → List ℕ) (next : ℕ) : Prop where
  nodup : ∀ p, (bag p).Nodup
  apart : ∀ p q n, n ∈ bag p → n ∈ bag q → p = q
  complete : ∀ n, n < next ↔ ∃ p, n ∈ bag p

theorem Exact.empty : Exact (fun _ : P => []) 0 :=
  ⟨fun _ => List.nodup_nil, by simp, by simp⟩

theorem Exact.move (h : Exact bag next) (hpq : p ≠ q) (kept moved : List ℕ)
    (hp : (bag p).Perm (kept ++ moved)) (hp' : (bag' p).Perm kept)
    (hq' : (bag' q).Perm (bag q ++ moved))
    (hother : ∀ r, r ≠ p → r ≠ q → bag' r = bag r) : Exact bag' next := by
  have hnodup := hp.nodup_iff.mp (h.nodup p)
  have hmoved : ∀ n ∈ moved, n ∈ bag p := fun n hn => hp.mem_iff.mpr (List.mem_append_right _ hn)
  have hapart : ∀ n ∈ moved, n ∉ bag q := fun n hn hq => hpq (h.apart p q n (hmoved n hn) hq)
  -- where a token now is says where it was
  have hwas : ∀ r n, n ∈ bag' r → (n ∈ bag r ∧ n ∉ moved) ∨ (r = q ∧ n ∈ moved) := by
    intro r n hn
    by_cases hr : r = q
    · subst hr
      rcases List.mem_append.mp (hq'.mem_iff.mp hn) with hn | hn
      · exact Or.inl ⟨hn, fun hm => hapart n hm hn⟩
      · exact Or.inr ⟨rfl, hn⟩
    · by_cases hrp : r = p
      · subst hrp
        have hk := hp'.mem_iff.mp hn
        refine Or.inl ⟨hp.mem_iff.mpr (List.mem_append_left _ hk), fun hm => ?_⟩
        exact (List.nodup_append.mp hnodup).2.2 n hk n hm rfl
      · rw [hother r hrp hr] at hn
        exact Or.inl ⟨hn, fun hm => hrp (h.apart r p n hn (hmoved n hm))⟩
  refine ⟨?_, ?_, ?_⟩
  · intro r
    by_cases hr : r = q
    · subst hr
      refine hq'.nodup_iff.mpr (List.Nodup.append (h.nodup r) hnodup.of_append_right ?_)
      exact fun n hn hm => hapart n hm hn
    · by_cases hrp : r = p
      · subst hrp
        exact hp'.nodup_iff.mpr hnodup.of_append_left
      · rw [hother r hrp hr]
        exact h.nodup r
  · intro r r' n hr hr'
    rcases hwas r n hr with ⟨h₁, hm₁⟩ | ⟨rfl, hm₁⟩ <;> rcases hwas r' n hr' with ⟨h₂, hm₂⟩ | ⟨rfl, hm₂⟩
    · exact h.apart r r' n h₁ h₂
    · exact absurd hm₂ hm₁
    · exact absurd hm₁ hm₂
    · rfl
  · intro n
    rw [h.complete n]
    constructor
    · intro ⟨r, hr⟩
      by_cases hm : n ∈ moved
      · exact ⟨q, hq'.mem_iff.mpr (List.mem_append_right _ hm)⟩
      · by_cases hrq : r = q
        · subst hrq
          exact ⟨r, hq'.mem_iff.mpr (List.mem_append_left _ hr)⟩
        · by_cases hrp : r = p
          · subst hrp
            rcases List.mem_append.mp (hp.mem_iff.mp hr) with hk | hk
            · exact ⟨r, hp'.mem_iff.mpr hk⟩
            · exact absurd hk hm
          · exact ⟨r, by rwa [hother r hrp hrq]⟩
    · intro ⟨r, hr⟩
      rcases hwas r n hr with ⟨hb, -⟩ | ⟨-, hm⟩
      · exact ⟨r, hb⟩
      · exact ⟨p, hmoved n hm⟩

theorem Exact.create (h : Exact bag next) (hq' : (bag' q).Perm (bag q ++ [next]))
    (hother : ∀ r, r ≠ q → bag' r = bag r) : Exact bag' (next + 1) := by
  have hfresh : ∀ r, next ∉ bag r := fun r hr => (Nat.lt_irrefl next) ((h.complete next).mpr ⟨r, hr⟩)
  have hwas : ∀ r n, n ∈ bag' r → n ∈ bag r ∨ (r = q ∧ n = next) := by
    intro r n hn
    by_cases hr : r = q
    · subst hr
      rcases List.mem_append.mp (hq'.mem_iff.mp hn) with hn | hn
      · exact Or.inl hn
      · exact Or.inr ⟨rfl, List.mem_singleton.mp hn⟩
    · rw [hother r hr] at hn
      exact Or.inl hn
  refine ⟨?_, ?_, ?_⟩
  · intro r
    by_cases hr : r = q
    · subst hr
      rw [hq'.nodup_iff, ← List.concat_eq_append]
      exact (h.nodup r).concat (hfresh r)
    · rw [hother r hr]
      exact h.nodup r
  · intro r r' n hr hr'
    rcases hwas r n hr with h₁ | ⟨rfl, rfl⟩ <;> rcases hwas r' n hr' with h₂ | ⟨rfl, h₂⟩
    · exact h.apart r r' n h₁ h₂
    · exact absurd (h₂ ▸ h₁) (hfresh r)
    · exact absurd h₂ (hfresh r')
    · rfl
  · intro n
    constructor
    · intro hn
      rcases Nat.lt_succ_iff_lt_or_eq.mp hn with hn | rfl
      · obtain ⟨r, hr⟩ := (h.complete n).mp hn
        by_cases hrq : r = q
        · subst hrq
          exact ⟨r, hq'.mem_iff.mpr (List.mem_append_left _ hr)⟩
        · exact ⟨r, by rwa [hother r hrq]⟩
      · exact ⟨q, hq'.mem_iff.mpr (List.mem_append_right _ List.mem_cons_self)⟩
    · intro ⟨r, hr⟩
      rcases hwas r n hr with hb | ⟨-, rfl⟩
      · have hlt := (h.complete n).mpr ⟨r, hb⟩
        omega
      · omega

end Muaddib.PlacedTokens
