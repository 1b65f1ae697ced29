import Muaddib.GroupSecrecy

/-! # The order of two groups' deeds does not matter

Two groups that reach no common object, and create nothing, may be interleaved in any way: each
gets the answers it gets alone, and the system ends up the same. -/
namespace Muaddib
open Footprints LabelledRuns Purging Reachability SystemEntry

def Move.ofDeed (m : ProcessId × Deed) : Move := .act m.1 m.2

section Quiet
variable {w : Split} {deed : Deed}

/-- A deed that creates nothing changes no side, no object out of reach of its process's group, and
lets no group reach more. -/
theorem Split.quiet_step (id : ProcessId) (hapart : Disjoint (w.reach true) (w.reach false))
    (hquiet : deed.creates = false) :
    (w.step (.act id deed)).2.side = w.side ∧
      (∀ g, (w.step (.act id deed)).2.reach g ⊆ w.reach g) ∧
      ∀ o, (∀ g, o ∉ w.reach g) →
        (w.step (.act id deed)).2.system.view (.object o) = w.system.view (.object o) := by
  have hnone := w.system.calls_create id hquiet
  have hother : Disjoint (w.reach !w.side id) (w.reach (w.side id)) := by
    cases w.side id with
    | true => exact hapart.symm
    | false => exact hapart
  obtain ⟨hholds, hframe⟩ : (w.step (.act id deed)).2.Holds (w.side id) (w.reach (w.side id)) ∧
      Frame w (w.step (.act id deed)).2 (w.side id) (w.reach (w.side id)) := by
    apply (w.holds_reach_self (w.side id)).act
    · exact fun e he halloc => by cases (hnone e he).1.symm.trans halloc
    · exact fun e he hspawn => by cases (hnone e he).2.symm.trans hspawn
  refine ⟨?_, fun g => ?_, fun o ho => ?_⟩
  · funext i
    rcases w.side_act id deed i with hi | ⟨-, e, he, hspawn⟩
    · exact hi
    · cases (hnone e he).2.symm.trans hspawn
  · by_cases hg : g = w.side id
    · subst hg
      exact hholds.reach_subset
    · obtain rfl := Bool.eq_not.mpr hg
      exact hframe.reach_subset hother
  · have hout := ho (w.side id)
    rw [System.view, System.view, hframe.epochs o hout, hframe.queues o hout, hframe.regions o hout]

theorem Split.quiet_run {ms : List (ProcessId × Deed)}
    (hapart : Disjoint (w.reach true) (w.reach false)) (hquiet : ∀ m ∈ ms, m.2.creates = false) :
    (final Split.step w (ms.map Move.ofDeed)).side = w.side ∧
      ∀ o, (∀ g, o ∉ w.reach g) →
        (final Split.step w (ms.map Move.ofDeed)).system.view (.object o) = w.system.view (.object o) := by
  induction ms generalizing w with
  | nil => exact ⟨rfl, fun _ _ => rfl⟩
  | cons m ms ih =>
    obtain ⟨hside, hreach, hview⟩ := Split.quiet_step m.1 hapart (hquiet m List.mem_cons_self)
    obtain ⟨hside', hview'⟩ := ih (hapart.mono (hreach true) (hreach false))
      fun m' hm' => hquiet m' (List.mem_cons_of_mem m hm')
    refine ⟨hside'.trans hside, fun o ho => ?_⟩
    exact (hview' o fun g hg => ho g (hreach g hg)).trans (hview o ho)

/-- What is purged of a sequence of deeds are those of the other group. -/
theorem Split.purge_deeds (g : Bool) {ms : List (ProcessId × Deed)}
    (hapart : Disjoint (w.reach true) (w.reach false)) (hquiet : ∀ m ∈ ms, m.2.creates = false) :
    purge (Split.foreign g) (trace Split.step w (ms.map Move.ofDeed)) =
      (ms.filter fun m => w.side m.1 == g).map Move.ofDeed := by
  induction ms generalizing w with
  | nil => rfl
  | cons m ms ih =>
    obtain ⟨hside, hreach, -⟩ := Split.quiet_step m.1 hapart (hquiet m List.mem_cons_self)
    have hrest := ih (hapart.mono (hreach true) (hreach false))
      fun m' hm' => hquiet m' (List.mem_cons_of_mem m hm')
    rw [hside] at hrest
    have hforeign : Split.foreign g (entry Split.step w (Move.ofDeed m)) = !(w.side m.1 == g) := rfl
    rw [List.map_cons, trace]
    cases hg : w.side m.1 == g with
    | true =>
      rw [hg] at hforeign
      rw [purge_cons_shown hforeign, List.filter_cons, if_pos hg, List.map_cons]
      exact congrArg (Move.ofDeed m :: ·) hrest
    | false =>
      rw [hg] at hforeign
      rw [purge_cons_hidden hforeign, List.filter_cons, if_neg (Bool.eq_false_iff.mp hg)]
      exact hrest

theorem Split.quiet_entries {ms : List (ProcessId × Deed)} (hquiet : ∀ m ∈ ms, m.2.creates = false) :
    ∀ e ∈ systemTrace (trace Split.step w (ms.map Move.ofDeed)),
      allocates e = false ∧ isSpawn e = false := by
  induction ms generalizing w with
  | nil => simp [systemTrace, trace]
  | cons m ms ih =>
    intro e he
    rcases List.mem_append.mp he with he | he
    · exact w.system.calls_create m.1 (hquiet m List.mem_cons_self) e he
    · exact ih (fun m' hm' => hquiet m' (List.mem_cons_of_mem m hm')) e he

theorem Split.quiet_deeds {first : List SystemEntry} {g : Bool} {ms : List (ProcessId × Deed)}
    (objects : objectCount first ≤ 2 ^ 64) (spawns : spawnCount first ≤ 2 ^ 64)
    (hquiet : ∀ m ∈ ms, m.2.creates = false) :
    Quiet first g (trace Split.step w (ms.map Move.ofDeed)) := by
  have hnone := Split.quiet_entries (w := w) hquiet
  have hcount (φ : SystemEntry → Bool) (hφ : ∀ e ∈ systemTrace (trace Split.step w (ms.map Move.ofDeed)),
      φ e = false) : (first ++ systemTrace (trace Split.step w (ms.map Move.ofDeed))).countP φ =
        first.countP φ := by
    rw [List.countP_append, List.countP_eq_zero.mpr fun e he => Bool.eq_false_iff.mp (hφ e he),
      Nat.add_zero]
  refine ⟨?_, ?_, fun e he id deed hcall _ => ?_⟩
  · exact (hcount allocates fun e he => (hnone e he).1).trans_le objects
  · exact (hcount isSpawn fun e he => (hnone e he).2).trans_le spawns
  · have hmem := List.mem_map_of_mem (f := Entry.call) he
    rw [map_call_trace, hcall] at hmem
    obtain ⟨m, hm, heq⟩ := List.mem_map.mp hmem
    obtain ⟨rfl, rfl⟩ := Move.act.inj heq
    exact hquiet m hm

end Quiet

/-- Two groups that reach no common object may take their deeds in any order: if each group's deeds
come in the same order, then each gets the same answers, and the system ends up the same. -/
theorem interleavings_agree {first : List SystemEntry} {w₀ : Split} {ms ms' : List (ProcessId × Deed)}
    (reached : SystemRun first w₀.system) (apart : Disjoint (w₀.reach true) (w₀.reach false))
    (objects : objectCount first ≤ 2 ^ 64) (spawns : spawnCount first ≤ 2 ^ 64)
    (quiet : ∀ m ∈ ms, m.2.creates = false)
    (same : ∀ g, ms.filter (fun m => w₀.side m.1 == g) = ms'.filter fun m => w₀.side m.1 == g) :
    final Split.step w₀ (ms.map Move.ofDeed) = final Split.step w₀ (ms'.map Move.ofDeed) ∧
      ∀ g, answers (systemTrace (shown (Split.foreign g) (trace Split.step w₀ (ms.map Move.ofDeed)))) =
        answers (systemTrace (shown (Split.foreign g) (trace Split.step w₀ (ms'.map Move.ofDeed)))) := by
  have quiet' : ∀ m ∈ ms', m.2.creates = false := by
    intro m hm
    have hmem : m ∈ ms'.filter fun m' => w₀.side m'.1 == w₀.side m.1 :=
      List.mem_filter.mpr ⟨hm, beq_self_eq_true (w₀.side m.1)⟩
    rw [← same] at hmem
    exact quiet m (List.mem_of_mem_filter hmem)
  have hgroup (g : Bool) {ms : List (ProcessId × Deed)} (quiet : ∀ m ∈ ms, m.2.creates = false) :=
    follows_alone (g := g) reached apart (Run.of_calls fun _ _ => trivial)
      (Split.quiet_deeds (w := w₀) objects spawns quiet)
  have hpurged (g : Bool) : purge (Split.foreign g) (trace Split.step w₀ (ms.map Move.ofDeed)) =
      purge (Split.foreign g) (trace Split.step w₀ (ms'.map Move.ofDeed)) := by
    rw [Split.purge_deeds g apart quiet, Split.purge_deeds g apart quiet', same]
  refine ⟨?_, fun g => ?_⟩
  · obtain ⟨hside, hrest⟩ := Split.quiet_run apart quiet
    obtain ⟨hside', hrest'⟩ := Split.quiet_run apart quiet'
    -- what a group reaches is as after its own deeds alone
    have hcells (g : Bool) (c : Cell) (hc : c ∈ w₀.cells g (w₀.reach g)) :
        (final Split.step w₀ (ms.map Move.ofDeed)).system.view c =
          (final Split.step w₀ (ms'.map Move.ofDeed)).system.view c := by
      obtain ⟨K, hfollows⟩ := hgroup g quiet
      obtain ⟨K', hfollows'⟩ := hgroup g quiet'
      have hin {w : Split} {K : Set ObjectId} (hw : w.side = w₀.side) (hK : w₀.reach g ⊆ K) :
          c ∈ w.cells g K := by
        rcases hc with rfl | ⟨i, hi, rfl⟩ | ⟨o, ho, rfl⟩
        · exact Or.inl rfl
        · exact Or.inr (Or.inl ⟨i, (congrFun hw i).trans hi, rfl⟩)
        · exact Or.inr (Or.inr ⟨o, hK ho, rfl⟩)
      have halone := hfollows.alike.agree c (hin hside hfollows.start)
      rw [hpurged] at halone
      exact halone.symm.trans (hfollows'.alike.agree c (hin hside' hfollows'.start))
    have hsystem : (final Split.step w₀ (ms.map Move.ofDeed)).system =
        (final Split.step w₀ (ms'.map Move.ofDeed)).system := by
      apply System.view_injective
      funext c
      cases c with
      | counters => exact hcells true _ (Or.inl rfl)
      | process i => exact hcells (w₀.side i) _ (Or.inr (Or.inl ⟨i, rfl, rfl⟩))
      | object o =>
        by_cases ho : ∃ g, o ∈ w₀.reach g
        · obtain ⟨g, ho⟩ := ho
          exact hcells g _ (Or.inr (Or.inr ⟨o, ho, rfl⟩))
        · rw [hrest o (not_exists.mp ho), hrest' o (not_exists.mp ho)]
    exact congrArg₂ Split.mk hsystem (hside.trans hside'.symm)
  · obtain ⟨K, hfollows⟩ := hgroup g quiet
    obtain ⟨K', hfollows'⟩ := hgroup g quiet'
    rw [← hfollows.answers, ← hfollows'.answers, hpurged]

/-- The second process writes its region and reads it back, before the events of the first or between
them. -/
theorem interleavings_agree_region :
    let w₀ : Split := ⟨final System.step .new [.newRegion 4, .spawn [],
      .spawn [⟨⟨0⟩, .READ ||| .WRITE ||| .GRANT ||| .DESTROY, 0⟩]], fun i => i = ⟨0⟩⟩
    let event : ProcessId × Deed := (⟨0⟩, .recordLocalEvent)
    let write : ProcessId × Deed := (⟨1⟩, .write ⟨0⟩ 0 [7])
    let read : ProcessId × Deed := (⟨1⟩, .read ⟨0⟩ 0 1)
    final Split.step w₀ ([event, write, event, read].map Move.ofDeed) =
      final Split.step w₀ ([write, read, event, event].map Move.ofDeed) := by
  intro w₀ event write read
  have hreached : SystemRun (trace System.step .new [.newRegion 4, .spawn [],
      .spawn [⟨⟨0⟩, .READ ||| .WRITE ||| .GRANT ||| .DESTROY, 0⟩]]) w₀.system :=
    Run.of_calls (by decide +kernel)
  have hapart := w₀.apart_of_bare (i := ⟨0⟩) (fun i hi => of_decide_eq_true hi) (by decide +kernel)
  refine (interleavings_agree hreached hapart (by decide +kernel) (by decide +kernel) ?_ ?_).1
  · simp [event, write, read, Deed.creates]
  · intro g
    cases g <;> rfl

end Muaddib
