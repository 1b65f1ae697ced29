import Mathlib

/-! # Runs of a deterministic labelled system

A system is a step function from a state and a call to an outcome and a state. A run keeps
the trace of everything that happened, so that a property of whole histories is a property
of one list. Which calls a client may make can depend on the trace so far. -/
namespace Muaddib.LabelledRuns

variable {σ κ ω : Type*}

structure Entry (σ κ ω : Type*) where
  before : σ
  call : κ
  outcome : ω
  after : σ
  deriving DecidableEq

/-- What happens when `c` is called in `s`. -/
def entry (step : σ → κ → ω × σ) (s : σ) (c : κ) : Entry σ κ ω := ⟨s, c, (step s c).1, (step s c).2⟩

/-- The runs from `s₀` in which every call was allowed by what had happened before it. -/
inductive Run (step : σ → κ → ω × σ) (allowed : List (Entry σ κ ω) → κ → Prop) (s₀ : σ) :
    List (Entry σ κ ω) → σ → Prop where
  | start : Run step allowed s₀ [] s₀
  | call {tr : List (Entry σ κ ω)} {s : σ} (run : Run step allowed s₀ tr s) (c : κ)
      (ok : allowed tr c) : Run step allowed s₀ (tr ++ [entry step s c]) (step s c).2

def trace (step : σ → κ → ω × σ) (s : σ) : List κ → List (Entry σ κ ω)
  | [] => []
  | c :: cs => entry step s c :: trace step (step s c).2 cs

def final (step : σ → κ → ω × σ) (s : σ) (cs : List κ) : σ := cs.foldl (fun s c => (step s c).2) s

variable {step : σ → κ → ω × σ} {allowed : List (Entry σ κ ω) → κ → Prop} {s₀ s s' : σ}
  {tr later : List (Entry σ κ ω)}

theorem trace_append (s : σ) (cs ds : List κ) :
    trace step s (cs ++ ds) = trace step s cs ++ trace step (final step s cs) ds := by
  induction cs generalizing s with
  | nil => rfl
  | cons c cs ih => exact congrArg (entry step s c :: ·) (ih (step s c).2)

theorem final_append (s : σ) (cs ds : List κ) :
    final step s (cs ++ ds) = final step (final step s cs) ds := List.foldl_append

/-- A fold that passes over the entries of a call keeps its value while the call repeats. -/
theorem foldl_trace_replicate {α : Type*} {f : α → Entry σ κ ω → α} {c : κ}
    (hf : ∀ s a, f a (entry step s c) = a) (n : ℕ) (s : σ) (a : α) :
    (trace step s (List.replicate n c)).foldl f a = a := by
  induction n generalizing s with
  | zero => rfl
  | succ n ih =>
    rw [List.replicate_succ, trace, List.foldl_cons, hf]
    exact ih (step s c).2

theorem map_call_trace (step : σ → κ → ω × σ) (s : σ) (cs : List κ) :
    (trace step s cs).map Entry.call = cs := by
  induction cs generalizing s with
  | nil => rfl
  | cons c cs ih => exact congrArg (c :: ·) (ih (step s c).2)

theorem call_mem_of_mem_trace {cs : List κ} {e : Entry σ κ ω} (he : e ∈ trace step s cs) :
    e.call ∈ cs := by
  have hcall := List.mem_map_of_mem (f := Entry.call) he
  rwa [map_call_trace] at hcall

namespace Run

/-- A sequence of calls is a run when each call is allowed after the calls before it. -/
theorem of_calls {cs : List κ}
    (h : ∀ i, (hi : i < cs.length) → allowed (trace step s (cs.take i)) cs[i]) :
    Run step allowed s (trace step s cs) (final step s cs) := by
  induction cs using List.reverseRecOn with
  | nil => exact .start
  | append_singleton cs c ih =>
    rw [trace_append, final_append]
    refine (ih fun i hi => ?_).call c ?_
    · have hc := h i (by simp; omega)
      rwa [List.take_append_of_le_length hi.le, List.getElem_append_left hi] at hc
    · simpa using h cs.length (by simp)

theorem last (h : Run step allowed s₀ tr s) : (tr = [] ∧ s = s₀) ∨ ∃ e ∈ tr, e.after = s := by
  cases h with
  | start => exact Or.inl ⟨rfl, rfl⟩
  | call run c ok => exact Or.inr ⟨_, List.mem_append_right _ List.mem_cons_self, rfl⟩

/-- A run can be continued by a run whose calls look back on the whole history. -/
theorem append (h : Run step allowed s₀ tr s)
    (h' : Run step (fun l => allowed (tr ++ l)) s later s') :
    Run step allowed s₀ (tr ++ later) s' := by
  induction h' with
  | start => simpa using h
  | call _ c ok ih =>
    rw [← List.append_assoc]
    exact ih.call c ok

theorem split (h : Run step allowed s₀ (tr ++ later) s') :
    ∃ s, Run step allowed s₀ tr s ∧ Run step (fun l => allowed (tr ++ l)) s later s' := by
  generalize htr : tr ++ later = whole at h
  induction h generalizing later with
  | start =>
    obtain ⟨rfl, rfl⟩ := List.append_eq_nil_iff.mp htr
    exact ⟨s₀, .start, .start⟩
  | @call earlier s run c ok ih =>
    rcases List.eq_nil_or_concat later with rfl | ⟨front, last, rfl⟩
    · rw [List.append_nil] at htr
      subst htr
      exact ⟨_, run.call c ok, .start⟩
    · rw [List.concat_eq_append, ← List.append_assoc] at htr
      obtain ⟨hfront, hlast⟩ := List.append_inj' htr rfl
      obtain ⟨s₁, h₁, h₂⟩ := ih hfront
      refine ⟨s₁, h₁, ?_⟩
      have hlast : last = entry step s c := List.singleton_inj.mp hlast
      subst hlast hfront
      rw [List.concat_eq_append]
      exact h₂.call c ok

/-- An entry in the middle of a trace records a step of the system. -/
theorem split_cons {e : Entry σ κ ω} (h : Run step allowed s₀ (tr ++ e :: later) s') :
    Run step allowed s₀ tr e.before ∧ allowed tr e.call ∧ e = entry step e.before e.call ∧
      Run step allowed s₀ (tr ++ [e]) e.after ∧
      Run step (fun l => allowed ((tr ++ [e]) ++ l)) e.after later s' := by
  rw [List.append_cons] at h
  obtain ⟨s₁, h₁, h₂⟩ := h.split
  generalize htr : tr ++ [e] = whole at h₁ h₂
  cases h₁ with
  | start => simp at htr
  | call run c ok =>
    obtain ⟨rfl, he⟩ := List.append_inj' htr rfl
    obtain rfl := List.singleton_inj.mp he
    exact ⟨run, ok, rfl, run.call c ok, h₂⟩

end Run
end Muaddib.LabelledRuns
