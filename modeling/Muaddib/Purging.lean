import Muaddib.LabelledRuns

/-! # Runs without the steps that nobody looks at

Some steps of a run are left out, and the calls of the others are made again in the same order. The
two runs are followed side by side: a hidden step is taken by the first alone, any other by both. -/
namespace Muaddib.Purging
open LabelledRuns

variable {σ κ ω : Type*} {step : σ → κ → ω × σ} {allowed : List (Entry σ κ ω) → κ → Prop} {s₀ s : σ}
  {tr : List (Entry σ κ ω)} {hidden : Entry σ κ ω → Bool}

def shown (hidden : Entry σ κ ω → Bool) (tr : List (Entry σ κ ω)) : List (Entry σ κ ω) :=
  tr.filter fun e => !hidden e

def purge (hidden : Entry σ κ ω → Bool) (tr : List (Entry σ κ ω)) : List κ :=
  (shown hidden tr).map Entry.call

theorem shown_append (tr later : List (Entry σ κ ω)) :
    shown hidden (tr ++ later) = shown hidden tr ++ shown hidden later := List.filter_append ..

theorem purge_cons_hidden {e : Entry σ κ ω} (h : hidden e = true) :
    purge hidden (e :: tr) = purge hidden tr := by
  simp [purge, shown, h]

theorem purge_cons_shown {e : Entry σ κ ω} (h : hidden e = false) :
    purge hidden (e :: tr) = e.call :: purge hidden tr := by
  simp [purge, shown, h]

theorem purge_snoc_hidden {e : Entry σ κ ω} (h : hidden e = true) :
    purge hidden (tr ++ [e]) = purge hidden tr := by
  simp [purge, shown, h]

theorem purge_snoc_shown {e : Entry σ κ ω} (h : hidden e = false) :
    purge hidden (tr ++ [e]) = purge hidden tr ++ [e.call] := by
  simp [purge, shown, h]

/-- The rule of unwinding: a relation that a hidden step keeps when only the first run takes it, and
any other step when both take it, holds between a run and the run without its hidden steps. -/
theorem unwinding (R : List (Entry σ κ ω) → σ → List (Entry σ κ ω) → σ → Prop)
    (run : Run step allowed s₀ tr s) (start : R [] s₀ [] s₀)
    (hides : ∀ {tr s tr' t} c, Run step allowed s₀ tr s → allowed tr c →
      Run step (fun _ _ => True) s₀ tr' t → R tr s tr' t → hidden (entry step s c) = true →
      R (tr ++ [entry step s c]) (step s c).2 tr' t)
    (shows : ∀ {tr s tr' t} c, Run step allowed s₀ tr s → allowed tr c →
      Run step (fun _ _ => True) s₀ tr' t → R tr s tr' t → hidden (entry step s c) = false →
      R (tr ++ [entry step s c]) (step s c).2 (tr' ++ [entry step t c]) (step t c).2) :
    R tr s (trace step s₀ (purge hidden tr)) (final step s₀ (purge hidden tr)) := by
  induction run with
  | start => exact start
  | @call tr s run c ok ih =>
    have hpurged : Run step (fun _ _ => True) s₀ (trace step s₀ (purge hidden tr))
        (final step s₀ (purge hidden tr)) := Run.of_calls fun _ _ => trivial
    cases hc : hidden (entry step s c) with
    | true =>
      rw [purge_snoc_hidden hc]
      exact hides c run ok hpurged ih hc
    | false =>
      rw [purge_snoc_shown hc, trace_append, final_append]
      exact shows c run ok hpurged ih hc

end Muaddib.Purging
