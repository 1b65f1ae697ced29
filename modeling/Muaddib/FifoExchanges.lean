import Mathlib

/-! # First-in first-out exchanges

What was sent, what was received and what is queued between them. A reception is of a type of
its own and related to the item it took. -/
namespace Muaddib.FifoExchanges

variable {α β : Type*} {R : β → α → Prop} {sent queue : List α} {received : List β}

/-- Everything sent was received, in the order of sending and once, or is still queued. -/
def InOrder (R : β → α → Prop) (sent : List α) (received : List β) (queue : List α) : Prop :=
  ∃ taken, sent = taken ++ queue ∧ List.Forall₂ R received taken

namespace InOrder

theorem start : InOrder R [] [] [] := ⟨[], rfl, .nil⟩

theorem send (h : InOrder R sent received queue) (a : α) :
    InOrder R (sent ++ [a]) received (queue ++ [a]) := by
  obtain ⟨taken, rfl, htaken⟩ := h
  exact ⟨taken, List.append_assoc .., htaken⟩

theorem receive {a : α} (h : InOrder R sent received (a :: queue)) {b : β} (hb : R b a) :
    InOrder R sent (received ++ [b]) queue := by
  obtain ⟨taken, rfl, htaken⟩ := h
  refine ⟨taken ++ [a], List.append_cons .., ?_⟩
  exact List.rel_append htaken (.cons hb .nil)

end InOrder
end Muaddib.FifoExchanges
