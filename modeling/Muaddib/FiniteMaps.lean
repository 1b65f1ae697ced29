import Mathlib

/-! # Finite maps with ordered keys

The maps of the development are extensional search trees: two maps with the same
lookups are equal, and enumeration is in key order. This file states the few facts
about insertion, removal and folds that the standard library does not spell out. -/
namespace Muaddib.FiniteMaps
open Std

variable {κ : Type*} {β : Type*} [Ord κ] [TransOrd κ] [LawfulEqOrd κ]

section Comap
variable {α : Type*} [Ord α] (f : α → κ)

omit [LawfulEqOrd κ] in
theorem transOrd_of_comap (h : ∀ a b : α, compare a b = compare (f a) (f b)) : TransOrd α where
  eq_swap {a b} := by
    rw [h, h]
    exact OrientedCmp.eq_swap
  isLE_trans {a b c} hab hbc := by
    rw [h] at hab hbc ⊢
    exact TransCmp.isLE_trans hab hbc

omit [TransOrd κ] in
theorem lawfulEqOrd_of_comap (h : ∀ a b : α, compare a b = compare (f a) (f b))
    (hf : Function.Injective f) : LawfulEqOrd α where
  compare_self {a} := by
    rw [h]
    exact ReflCmp.compare_self
  eq_of_compare {a b} hab := by
    rw [h] at hab
    exact hf (LawfulEqCmp.eq_of_compare hab)

end Comap

/-- Lookup after an insertion, with the comparison of keys stated as an equality. -/
theorem getElem?_insert [DecidableEq κ] (m : ExtTreeMap κ β) (k a : κ) (v : β) :
    (m.insert k v)[a]? = if k = a then some v else m[a]? := by
  simp [ExtTreeMap.getElem?_insert]

theorem getElem?_erase [DecidableEq κ] (m : ExtTreeMap κ β) (k a : κ) :
    (m.erase k)[a]? = if k = a then none else m[a]? := by
  simp [ExtTreeMap.getElem?_erase]

theorem insert_of_getElem? (m : ExtTreeMap κ β) {k : κ} {v : β} (h : m[k]? = some v) :
    m.insert k v = m := by
  apply ExtTreeMap.ext_getElem?
  intro a
  rw [ExtTreeMap.getElem?_insert]
  split
  · next hk =>
    rw [← h]
    exact ExtTreeMap.getElem?_congr hk
  · rfl

theorem insert_insert (m : ExtTreeMap κ β) (k : κ) (v w : β) :
    (m.insert k v).insert k w = m.insert k w := by
  apply ExtTreeMap.ext_getElem?
  intro a
  simp only [ExtTreeMap.getElem?_insert]
  split <;> rfl

section Images
variable {γ : Type*} (m : ExtTreeMap κ β) (f : β → γ) (k : κ)

theorem map_insert (v : β) :
    (m.insert k v).map (fun _ x => f x) = (m.map fun _ x => f x).insert k (f v) := by
  apply ExtTreeMap.ext_getElem?
  intro a
  rw [ExtTreeMap.getElem?_map, ExtTreeMap.getElem?_insert, ExtTreeMap.getElem?_insert,
    ExtTreeMap.getElem?_map]
  split <;> rfl

end Images
end Muaddib.FiniteMaps
