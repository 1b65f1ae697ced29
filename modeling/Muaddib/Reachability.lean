import Mathlib

/-! # Reachability from roots

The least set that contains the roots and is closed under a relation. When both change inside a
set of elements only, whatever is out of reach of that set reaches nothing new. -/
namespace Muaddib.Reachability

variable {α : Type*} {roots roots' mine theirs : Set α} {next next' : α → α → Prop} {K : Set α}

inductive Reach (roots : Set α) (next : α → α → Prop) : α → Prop where
  | root {a : α} (mem : a ∈ roots) : Reach roots next a
  | edge {a b : α} (reached : Reach roots next a) (step : next a b) : Reach roots next b

def reach (roots : Set α) (next : α → α → Prop) : Set α := {a | Reach roots next a}

theorem roots_subset_reach : roots ⊆ reach roots next := fun _ ha => .root ha

theorem reach_subset (hroots : roots ⊆ K) (hclosed : ∀ a ∈ K, ∀ b, next a b → b ∈ K) :
    reach roots next ⊆ K := by
  intro a ha
  induction ha with
  | root mem => exact hroots mem
  | edge _ step ih => exact hclosed _ ih _ step

/-- Without new roots, and with new edges only from what is out of reach, the set does not grow. -/
theorem reach_subset_of_frame (hroots : roots' ⊆ roots)
    (hnext : ∀ a ∉ K, ∀ b, next' a b → next a b) (hK : Disjoint (reach roots next) K) :
    reach roots' next' ⊆ reach roots next := by
  refine reach_subset (hroots.trans roots_subset_reach) fun a ha b hab => ?_
  exact Reach.edge ha (hnext a (Set.disjoint_left.mp hK ha) b hab)

/-- Two roots out of reach of each other stay so under a change inside a set that the second does
not reach and the first does not leave. -/
theorem disjoint_of_frame (hmine : mine ⊆ K) (hclosed : ∀ a ∈ K, ∀ b, next' a b → b ∈ K)
    (htheirs : roots' ⊆ theirs) (hnext : ∀ a ∉ K, ∀ b, next' a b → next a b)
    (hK : Disjoint (reach theirs next) K) :
    Disjoint (reach roots' next') (reach mine next') :=
  hK.mono (reach_subset_of_frame htheirs hnext hK) (reach_subset hmine hclosed)

end Muaddib.Reachability
