import Muaddib.RingPipelines

/-! # What a run of the ring owes to its schedule

A run sees no more of its schedule than the turns it takes, it ends whatever the schedule is, and if it
finishes the last turn is the sink's. -/
namespace Muaddib.RingPipelines
open Carousel

variable {α β : Type*}

def Ending.turns : Ending α β → ℕ
  | .finished turns _ _ => turns
  | .stalled turns => turns

section Schedules
variable {w : Work α β} {stages batches fuel t streak idle turns idles : ℕ} {r r' : Carousel α β}
  {schedule schedule' : ℕ → Seat} {ending : Ending α β}

theorem spin_turns (h : spin w stages batches schedule fuel t streak idle r = some ending) :
    t ≤ ending.turns ∧ ending.turns ≤ t + fuel := by
  induction fuel generalizing t streak idle r with
  | zero => cases h
  | succ fuel ih =>
    rw [spin] at h
    split at h
    · split at h
      · obtain ⟨hlo, hhi⟩ := ih h
        omega
      · split at h
        · rw [← Option.some.inj h]
          change t ≤ t + 1 ∧ t + 1 ≤ t + (fuel + 1)
          omega
        · obtain ⟨hlo, hhi⟩ := ih h
          omega
    · rw [← Option.some.inj h]
      change t ≤ t ∧ t ≤ t + (fuel + 1)
      omega

theorem spin_congr (h : spin w stages batches schedule fuel t streak idle r = some ending)
    (hagree : ∀ u, u < ending.turns → schedule' u = schedule u) :
    spin w stages batches schedule' fuel t streak idle r = some ending := by
  induction fuel generalizing t streak idle r with
  | zero => cases h
  | succ fuel ih =>
    rw [spin] at h ⊢
    split at h
    · next hunfinished =>
      rw [if_pos hunfinished]
      have hsame : t < ending.turns → schedule' t = schedule t := hagree t
      cases hturn : r.turn w stages batches (schedule t) with
      | mk progressed r₁ =>
        rw [hturn] at h
        cases progressed with
        | true =>
          rw [hsame (Nat.lt_of_succ_le (spin_turns h).1), hturn]
          exact ih h
        | false =>
          simp only at h
          split at h
          · next hstalled =>
            have hlt : t < ending.turns := by
              rw [← Option.some.inj h]
              exact Nat.lt_succ_self t
            rw [hsame hlt, hturn]
            simp only [if_pos hstalled]
            exact h
          · next hpatient =>
            rw [hsame (Nat.lt_of_succ_le (spin_turns h).1), hturn]
            simp only [if_neg hpatient]
            exact ih h
    · next hfinished =>
      rw [if_neg hfinished]
      exact h

/-- Every run ends: progress uses up what remains, and idling is not tolerated for long. -/
theorem spin_ends (hseats : ∀ t, schedule t ∈ seats stages) (fuel : ℕ)
    (hround : streak ≤ stages + 3)
    (hfuel : remaining stages batches r * (stages + 5) + (stages + 4 - streak) < fuel) :
    ∃ ending, spin w stages batches schedule fuel t streak idle r = some ending := by
  induction fuel generalizing t streak idle r with
  | zero => omega
  | succ fuel ih =>
    rw [spin]
    split
    · cases hturn : r.turn w stages batches (schedule t) with
      | mk progressed r₁ =>
        cases progressed with
        | true =>
          have hless := remaining_lt (hseats t) (congrArg Prod.fst hturn)
          rw [hturn] at hless
          change remaining stages batches r₁ < remaining stages batches r at hless
          have hmul := Nat.mul_le_mul_right (stages + 5) (Nat.succ_le_of_lt hless)
          rw [Nat.succ_mul] at hmul
          exact ih (Nat.zero_le _) (by omega)
        | false =>
          obtain rfl : r₁ = r := (congrArg Prod.snd hturn).symm.trans
            (turn_idle (congrArg Prod.fst hturn))
          simp only
          split
          · exact ⟨_, rfl⟩
          · exact ih (by omega) (by omega)
    · exact ⟨_, rfl⟩

theorem results_of_ne_sink {seat : Seat} (hseat : seat ≠ .sink) :
    (r.turn w stages batches seat).2.results = r.results := by
  cases seat with
  | sink => exact absurd rfl hseat
  | supervisor => rfl
  | transformer i =>
    rw [Carousel.turn]
    split <;> rfl
  | producer =>
    rw [Carousel.turn]
    split
    · split <;> rfl
    · rfl

theorem spin_last (h : spin w stages batches schedule fuel t streak idle r =
    some (.finished turns idles r')) (hunfinished : r.results.length < batches) :
    t < turns ∧ schedule (turns - 1) = .sink := by
  induction fuel generalizing t streak idle r with
  | zero => cases h
  | succ fuel ih =>
    rw [spin, if_pos hunfinished] at h
    have hnext : ∀ {streak idle : ℕ} {r₁ : Carousel α β},
        (r.turn w stages batches (schedule t)).2 = r₁ →
        spin w stages batches schedule fuel (t + 1) streak idle r₁ = some (.finished turns idles r') →
        t < turns ∧ schedule (turns - 1) = .sink := by
      intro streak idle r₁ hturn hspin
      by_cases hmore : r₁.results.length < batches
      · obtain ⟨hlt, hsink⟩ := ih hspin hmore
        exact ⟨by omega, hsink⟩
      · cases fuel with
        | zero => cases hspin
        | succ fuel =>
          rw [spin, if_neg hmore] at hspin
          obtain ⟨rfl, -, -⟩ := Ending.finished.inj (Option.some.inj hspin)
          refine ⟨Nat.lt_succ_self t, ?_⟩
          by_contra hne
          have hresults : (r.turn w stages batches _).2.results = r.results := results_of_ne_sink hne
          rw [Nat.add_sub_cancel, hturn] at hresults
          rw [hresults] at hmore
          exact hmore hunfinished
    split at h
    · next r₁ hturn => exact hnext (congrArg Prod.snd hturn) h
    · next r₁ hturn =>
      split at h
      · cases h
      · exact hnext (congrArg Prod.snd hturn) h

end Schedules

end Muaddib.RingPipelines
