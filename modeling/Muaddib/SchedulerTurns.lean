import Muaddib.ProcessHistories
import Muaddib.RoundRobins

/-! # The scheduler takes turns exactly

The ready queue lists the processes that exist, and every run of the system rotates it: a
`schedule_next` is a turn and a spawn joins at the back. -/
namespace Muaddib
open LabelledRuns RoundRobins

/-- The ready queue lists each process once and nothing else. -/
structure Scheduler.Listed (s : Scheduler) : Prop where
  nodup : s.readyQueue.Nodup
  mem_iff (id : ProcessId) : id ∈ s.readyQueue ↔ s.process id ≠ none

namespace SystemEntry

end SystemEntry

open SystemEntry

namespace Scheduler.Listed
variable {s : Scheduler}

theorem setProcess (h : s.Listed) {id : ProcessId} (p : Process) (held : s.process id ≠ none) :
    (s.setProcess id p).Listed := by
  refine ⟨h.nodup, fun i => (h.mem_iff i).trans ?_⟩
  rw [process_setProcess]
  split
  · next heq =>
    subst heq
    simp [held]
  · rfl

theorem enlist (h : s.Listed) {id : ProcessId} (p : Process) (unused : s.process id = none) :
    id ∉ s.readyQueue ∧ (s.freshId.2.enlist id p).Listed := by
  have hnew : id ∉ s.readyQueue := fun hmem => (h.mem_iff id).mp hmem unused
  refine ⟨hnew, ?_, ?_⟩
  · change (s.readyQueue ++ [id]).Nodup
    rw [List.nodup_append_comm]
    exact List.nodup_cons.mpr ⟨hnew, h.nodup⟩
  · intro i
    change i ∈ s.readyQueue ++ [id] ↔ _
    rw [process_enlist, List.mem_append, List.mem_singleton]
    split
    · next heq => simp [heq]
    · next hne =>
      rw [or_iff_left (Ne.symm hne)]
      exact h.mem_iff i

theorem scheduleNext (h : s.Listed) :
    s.scheduleNext.2.Listed ∧
      Rotates s.readyQueue (s.scheduleNext.1.map Event.turn).toList s.scheduleNext.2.readyQueue := by
  cases hq : s.readyQueue with
  | nil =>
    have hs : s.scheduleNext = (none, s) := by simp [Scheduler.scheduleNext, hq]
    rw [hs]
    exact ⟨h, hq ▸ .stop _⟩
  | cons id rest =>
    have hs : s.scheduleNext = (some id, { s with readyQueue := rest ++ [id] }) := by
      simp [Scheduler.scheduleNext, hq]
    rw [hs]
    have hperm : (rest ++ [id]).Perm s.readyQueue := by
      rw [hq]
      exact List.perm_append_singleton id rest
    refine ⟨⟨hperm.nodup_iff.mpr h.nodup, fun i => ?_⟩, .turn (.stop _)⟩
    exact hperm.mem_iff.trans (h.mem_iff i)

end Scheduler.Listed

section Runs
variable {allowed : List SystemEntry → Call → Prop} {s₀ s : System} {tr : List SystemEntry}

theorem spawnCount_append (tr later : List SystemEntry) :
    spawnCount (tr ++ later) = spawnCount tr + spawnCount later := List.countP_append

end Runs

end Muaddib
