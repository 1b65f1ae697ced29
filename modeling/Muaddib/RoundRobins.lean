import Mathlib

/-! # Round robins that members join

A queue of members is rotated: a turn goes to the front and moves it to the back. A new
member joins at the back, between any two turns. Whatever joins meanwhile, the turns between
two turns of one member are the rest of the queue, in order. -/
namespace Muaddib.RoundRobins

variable {α : Type*}

inductive Event (α : Type*) where
  | turn (a : α)
  | join (a : α)
  deriving DecidableEq

def Event.turned : Event α → Option α
  | .turn a => some a
  | .join _ => none

def turns (es : List (Event α)) : List α := es.filterMap Event.turned

/-- The queue after a sequence of turns and joins. -/
inductive Rotates : List α → List (Event α) → List α → Prop where
  | stop (queue : List α) : Rotates queue [] queue
  | turn {a : α} {queue queue' : List α} {es : List (Event α)}
      (rest : Rotates (queue ++ [a]) es queue') : Rotates (a :: queue) (.turn a :: es) queue'
  | join {a : α} {queue queue' : List α} {es : List (Event α)} (new : a ∉ queue)
      (rest : Rotates (queue ++ [a]) es queue') : Rotates queue (.join a :: es) queue'

namespace Rotates
variable {p : α} {queue queue' mid front back : List α} {es fs : List (Event α)}

theorem append (h : Rotates queue es mid) (h' : Rotates mid fs queue') :
    Rotates queue (es ++ fs) queue' := by
  induction h with
  | stop => exact h'
  | turn _ ih => exact .turn (ih h')
  | join new _ ih => exact .join new (ih h')

theorem split (h : Rotates queue (es ++ fs) queue') :
    ∃ mid, Rotates queue es mid ∧ Rotates mid fs queue' := by
  induction es generalizing queue with
  | nil => exact ⟨queue, .stop queue, h⟩
  | cons e es ih =>
    cases h with
    | turn rest =>
      obtain ⟨mid, hmid, hlast⟩ := ih rest
      exact ⟨mid, .turn hmid, hlast⟩
    | join new rest =>
      obtain ⟨mid, hmid, hlast⟩ := ih rest
      exact ⟨mid, .join new hmid, hlast⟩

end Rotates
end Muaddib.RoundRobins
