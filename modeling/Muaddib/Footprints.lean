import Mathlib

/-! # Footprints

A state is looked at cell by cell, and two states that look the same everywhere are equal. An
operation is local to a set of cells when it reads and writes no other; two operations that are
local to disjoint sets commute. -/
namespace Muaddib.Footprints

variable {S C V R Q : Type*} {view : S → C → V} {A B : Set C} {s t t₀ : S}

/-- The states look the same on `A`. -/
def Agree (view : S → C → V) (A : Set C) (s t : S) : Prop := ∀ c ∈ A, view t c = view s c

/-- `t` looks like `s` on `A` and like `t₀` elsewhere. -/
structure Tracks (view : S → C → V) (A : Set C) (t₀ s t : S) : Prop where
  inside : Agree view A s t
  outside : ∀ c, c ∉ A → view t c = view t₀ c

theorem Agree.tracks (h : Agree view A s t) : Tracks view A t s t := ⟨h, fun _ _ => rfl⟩

/-- `w` rewrites the cell `c` by what the cell holds, and no other. -/
def Writes (view : S → C → V) (c : C) (w : S → S) : Prop :=
  ∃ g : V → V, (∀ s, view (w s) c = g (view s c)) ∧ ∀ s a, a ≠ c → view (w s) a = view s a

theorem Tracks.write (h : Tracks view A t₀ s t) {c : C} {w : S → S} (hw : Writes view c w)
    (hc : c ∈ A) : Tracks view A t₀ (w s) (w t) := by
  obtain ⟨g, hat, haway⟩ := hw
  refine ⟨fun a ha => ?_, fun a ha => ?_⟩
  · by_cases hac : a = c
    · subst a
      rw [hat, hat, h.inside c hc]
    · rw [haway _ _ hac, haway _ _ hac]
      exact h.inside a ha
  · have hac : a ≠ c := fun hac => ha (hac ▸ hc)
    rw [haway _ _ hac]
    exact h.outside a ha

/-- From every state that looks like `s` on `A`, the operation returns what it returns from `s`,
does on `A` what it does from `s`, and changes nothing elsewhere. -/
def Local (view : S → C → V) (A : Set C) (s : S) (f : S → R × S) : Prop :=
  ∀ t, Agree view A s t → (f t).1 = (f s).1 ∧ Tracks view A t (f s).2 (f t).2

namespace Local
variable {f : S → R × S} {g : S → Q × S}

/-- The operation leaves every state it is local at alike outside its footprint. -/
theorem agree_of_disjoint (h : Local view A s f) (hd : Disjoint A B) :
    Agree view B s (f s).2 := fun c hc =>
  (h s fun _ _ => rfl).2.outside c fun hcA => Set.disjoint_left.mp hd hcA hc

theorem mono (h : Local view A s f) (hAB : A ⊆ B) : Local view B s f := by
  intro t ht
  obtain ⟨hresult, htracks⟩ := h t fun c hc => ht c (hAB hc)
  refine ⟨hresult, fun c hc => ?_, fun c hc => htracks.outside c fun hcA => hc (hAB hcA)⟩
  by_cases hcA : c ∈ A
  · exact htracks.inside c hcA
  · rw [htracks.outside c hcA, ht c hc, (h s fun _ _ => rfl).2.outside c hcA]

/-- One local operation after another, which may depend on what the first returned. -/
theorem bind {g : R → S → Q × S} (hf : Local view A s f) (hg : Local view A (f s).2 (g (f s).1)) :
    Local view A s fun s => g (f s).1 (f s).2 := by
  intro t ht
  obtain ⟨hresult, htracks⟩ := hf t ht
  obtain ⟨hresult', htracks'⟩ := hg _ htracks.inside
  simp only [hresult]
  refine ⟨hresult', htracks'.inside, fun c hc => ?_⟩
  rw [htracks'.outside c hc, htracks.outside c hc]

/-- Local operations with disjoint footprints commute: same results and same final state. -/
theorem commute (hinj : Function.Injective view) (hf : Local view A s f) (hg : Local view B s g)
    (hd : Disjoint A B) :
    (g (f s).2).1 = (g s).1 ∧ (f (g s).2).1 = (f s).1 ∧ (g (f s).2).2 = (f (g s).2).2 := by
  obtain ⟨hgresult, hgtracks⟩ := hg _ (hf.agree_of_disjoint hd)
  obtain ⟨hfresult, hftracks⟩ := hf _ (hg.agree_of_disjoint hd.symm)
  refine ⟨hgresult, hfresult, hinj (funext fun c => ?_)⟩
  by_cases hcA : c ∈ A
  · have hcB : c ∉ B := Set.disjoint_left.mp hd hcA
    rw [hgtracks.outside c hcB, hftracks.inside c hcA]
  · rw [hftracks.outside c hcA]
    by_cases hcB : c ∈ B
    · exact hgtracks.inside c hcB
    · have hfs := (hf s fun _ _ => rfl).2.outside c hcA
      have hgs := (hg s fun _ _ => rfl).2.outside c hcB
      rw [hgtracks.outside c hcB, hfs, hgs]

end Local
end Muaddib.Footprints
