import Muaddib.OwnFootprints
import Muaddib.Purging
import Muaddib.RegionReclaims

/-! # A group of processes does not see what the others do

Two groups that reach no common object share the counters that number objects and processes, and
the ready queue. As long as the one creates nothing, the other cannot tell whether it ran at all. -/
namespace Muaddib
open Footprints LabelledRuns Purging Reachability SystemEntry

namespace Split
variable {w v w' v' : Split} {g : Bool} {K : Set ObjectId} {id : ProcessId} {deed : Deed}

def foreign (g : Bool) (e : SplitEntry) : Bool :=
  match e.call with
  | .act id _ => e.before.side id != g
  | _ => false

/-- The processes of a group, `K`, and the counters. -/
def cells (w : Split) (g : Bool) (K : Set ObjectId) : Set Cell :=
  {c | c = .counters ∨ (∃ i, w.side i = g ∧ c = .process i) ∨ ∃ o ∈ K, c = .object o}

/-- The second looks to the group like the first, in which the group has `K` to act on. -/
structure Alike (g : Bool) (K : Set ObjectId) (w v : Split) : Prop where
  side : v.side = w.side
  holds : w.Holds g K
  apart : Disjoint (w.reach !g) K
  agree : Agree System.view (w.cells g K) w.system v.system

theorem covers (h : w.Holds (w.side id) K) {E : Set Cell} (hE : w.cells (w.side id) K ⊆ E) :
    Covers E w.system id where
  self := hE (Or.inr (Or.inl ⟨id, rfl, rfl⟩))
  held p a c hp hc := hE (Or.inr (Or.inr ⟨c.object, h.named id p a c rfl hp hc, rfl⟩))

theorem Holds.reach_subset (h : w.Holds g K) : w.reach g ⊆ K := by
  apply Reachability.reach_subset
  · rintro o ⟨i, hi, a, c, hc, rfl⟩
    obtain ⟨p, hp, hc⟩ := Option.bind_eq_some_iff.mp hc
    exact h.named i p a c hi hp hc
  · exact h.passes

theorem holds_reach_self (w : Split) (g : Bool) : w.Holds g (w.reach g) where
  named i p a c hi hp hc := .root ⟨i, hi, a, c, Option.bind_eq_some_iff.mpr ⟨p, hp, hc⟩, rfl⟩
  passes _ ho _ hpass := .edge ho hpass

/-- What changes inside `K` does not make the other group reach more. -/
theorem Frame.reach_subset (h : Frame w w' g K) (hK : Disjoint (w.reach !g) K) :
    w'.reach (!g) ⊆ w.reach !g := by
  refine reach_subset_of_frame ?_ ?_ hK
  · rintro o ⟨i, hi, a, c, hc, rfl⟩
    obtain ⟨p, hp, hc⟩ := Option.bind_eq_some_iff.mp hc
    obtain ⟨hi, hp⟩ := h.noOther i p (Bool.eq_not.mp hi) hp
    exact ⟨i, Bool.eq_not.mpr hi, a, c, Option.bind_eq_some_iff.mpr ⟨p, hp, hc⟩, rfl⟩
  · rintro o ho a ⟨queue, hq, hm⟩
    exact ⟨queue, (h.queues o ho).symm.trans hq, hm⟩

/-- A deed leaves the system where its calls lead, and sides as its outcomes tell. -/
theorem foldl_call (w : Split) (id : ProcessId) (calls : List Call) :
    calls.foldl (fun w c => w.call id c) w = ⟨final System.step w.system calls,
      ((trace System.step w.system calls).map Entry.outcome).foldl (fun side o => joins side id o)
        w.side⟩ := by
  induction calls generalizing w with
  | nil => rfl
  | cons c calls ih => exact ih (w.call id c)

theorem step_act (w : Split) (id : ProcessId) (deed : Deed) :
    (w.step (.act id deed)).2 = ⟨(w.system.act id deed).2,
      ((w.system.act id deed).1.map Prod.snd).foldl (fun side o => joins side id o) w.side⟩ := by
  change (w.system.calls id deed).foldl (fun w c => w.call id c) w = _
  rw [foldl_call, System.act, List.map_map]
  rfl

theorem joins_eq {side : ProcessId → Bool} {outcome : Outcome} {i : ProcessId}
    (h : outcome ≠ .ok (.process i)) : joins side id outcome i = side i := by
  unfold joins
  split
  · next child =>
    have hne : i ≠ child := by
      rintro rfl
      exact h rfl
    exact Function.update_of_ne hne ..
  · rfl

end Split

theorem Effect.spawned_id {s s' : System} {call : Call} {outcome : Outcome} {i : ProcessId}
    (h : Effect s call outcome s') (hi : outcome = .ok (.process i)) :
    i = ⟨s.sched.nextProcessId⟩ ∧ isSpawn ⟨s, call, outcome, s'⟩ = true := by
  subst hi
  cases h with
  | spawned | spawnedChild => exact ⟨rfl, rfl⟩

theorem Split.side_act (w : Split) (id : ProcessId) (deed : Deed) (i : ProcessId) :
    (w.step (.act id deed)).2.side i = w.side i ∨ i = ⟨w.system.sched.nextProcessId⟩ ∧
      ∃ e ∈ (w.step (.act id deed)).1, e.isSpawn = true := by
  have hgrant (s : System) (cap : Capability) (side : ProcessId → Bool) :
      joins side id (s.step (.grant id cap)).1 i = side i := by
    apply joins_eq
    intro heq
    cases ((s.step_effect _).spawned_id heq).2.symm.trans (isSpawn_grant s id cap)
  rcases w.system.calls_cases id deed with hcalls | ⟨p, c, hp, hc, hcalls⟩
  · refine Or.inl ?_
    change ((w.system.calls id deed).foldl (fun w c => w.call id c) w).side i = _
    rw [hcalls]
    rfl
  · have hfirst : entry System.step w.system c ∈ (w.step (.act id deed)).1 := by
      apply System.entry_mem_calls
      rw [hp]
      exact hc
    have hside : (w.step (.act id deed)).2.side i = joins w.side id (w.system.step c).1 i := by
      change ((w.system.calls id deed).foldl (fun w c => w.call id c) w).side i = _
      rcases hcalls with hcalls | ⟨cap, -, hcalls⟩
      · rw [hcalls]
        rfl
      · rw [hcalls]
        exact hgrant _ cap _
    by_cases hspawn : (w.system.step c).1 = .ok (.process i)
    · obtain ⟨hi, hisspawn⟩ := (w.system.step_effect c).spawned_id hspawn
      exact Or.inr ⟨hi, _, hfirst, hisspawn⟩
    · exact Or.inl (hside.trans (joins_eq hspawn))

section Fresh
variable {tr : List SystemEntry} {s : System}

theorem SystemRun.fresh_object (h : SystemRun tr s) (hlt : objectCount tr < 2 ^ 64) :
    s.kernel.nextId.toNat = objectCount tr ∧
      s.view (.object ⟨s.kernel.nextId⟩) = .object none none none := by
  have halloc := Allocated.run h hlt.le
  have hnext := halloc.toNat_nextId hlt
  refine ⟨hnext, ?_⟩
  have hepoch : s.kernel.epochs[ObjectId.mk s.kernel.nextId]? = none := by
    by_contra hsome
    have hbelow := (Stored.run h hlt.le).below _ (Kernel.objectExists_iff.mpr hsome)
    simp only [hnext] at hbelow
    omega
  have hqueue : s.channels.queues[ObjectId.mk s.kernel.nextId]? = none := by
    cases hq : s.channels.queues[ObjectId.mk s.kernel.nextId]? with
    | none => rfl
    | some queue =>
      have hbelow := halloc.queues _ queue hq
      simp only [hnext] at hbelow
      omega
  have hbytes : s.memory.regions[ObjectId.mk s.kernel.nextId]? = none := by
    cases hb : s.memory.regions[ObjectId.mk s.kernel.nextId]? with
    | none => rfl
    | some bytes =>
      have hbelow := (Filled.run h hlt.le).below _ bytes hb
      simp only [hnext] at hbelow
      omega
  simp only [System.view, hepoch, hqueue, hbytes]

theorem SystemRun.fresh_process (h : SystemRun tr s) (hlt : spawnCount tr < 2 ^ 64) :
    s.view (.process ⟨s.sched.nextProcessId⟩) = .process none := by
  rw [System.view, (Registered.run h hlt.le).unused hlt]

end Fresh

theorem System.step_creates (s : System) {call : Call} (h : call.creates = false) :
    allocates (entry System.step s call) = false ∧ isSpawn (entry System.step s call) = false := by
  constructor
  · by_contra halloc
    have hcall := allocates_call (Bool.not_eq_false _ ▸ halloc)
    unfold entry at hcall
    cases call <;> simp [Call.allocates, Call.creates] at hcall h
  · have heffect := s.step_effect call
    unfold entry
    generalize (s.step call).1 = outcome at heffect
    generalize (s.step call).2 = s' at heffect
    cases heffect with
    | spawned | spawnedChild => cases h
    | _ => rfl

theorem System.calls_create (s : System) (id : ProcessId) {deed : Deed} (h : deed.creates = false) :
    ∀ e ∈ trace System.step s (s.calls id deed), allocates e = false ∧ isSpawn e = false := by
  intro e he
  rcases s.calls_cases id deed with hcalls | ⟨p, c, -, hc, hcalls⟩
  · rw [hcalls] at he
    cases he
  · have hfirst := s.step_creates (Deed.creates_call hc ▸ h)
    rcases hcalls with hcalls | ⟨cap, -, hcalls⟩
    · rw [hcalls] at he
      obtain rfl := List.mem_singleton.mp he
      exact hfirst
    · rw [hcalls] at he
      rcases List.mem_cons.mp he with rfl | he
      · exact hfirst
      · obtain rfl := List.mem_singleton.mp he
        exact (s.step c).2.step_creates rfl

namespace Split.Alike
variable {w v : Split} {g : Bool} {K : Set ObjectId} {id : ProcessId} {deed : Deed}

theorem counters (h : Alike g K w v) : v.system.kernel.nextId = w.system.kernel.nextId ∧
    v.system.sched.nextProcessId = w.system.sched.nextProcessId ∧
    v.system.sched.readyQueue = w.system.sched.readyQueue :=
  h.agree.counters (Or.inl rfl)

theorem own (h : Alike g K w v) (hid : w.side id = g) (deed : Deed)
    (hobject : ∀ e ∈ (w.step (.act id deed)).1, e.allocates = true →
      w.system.view (.object ⟨w.system.kernel.nextId⟩) = .object none none none ∧
      v.system.view (.object ⟨v.system.kernel.nextId⟩) = .object none none none ∧
      ⟨w.system.kernel.nextId⟩ ∉ w.reach !g)
    (hprocess : ∀ e ∈ (w.step (.act id deed)).1, e.isSpawn = true →
      w.system.view (.process ⟨w.system.sched.nextProcessId⟩) = .process none ∧
      v.system.view (.process ⟨v.system.sched.nextProcessId⟩) = .process none) :
    (v.system.act id deed).1 = (w.system.act id deed).1 ∧ ∃ K', K ⊆ K' ∧
      Alike g K' (w.step (.act id deed)).2 (v.step (.act id deed)).2 := by
  subst hid
  obtain ⟨hnext, hpid, -⟩ := h.counters
  rw [hnext] at hobject
  rw [hpid] at hprocess
  let fresh : Set ObjectId := {o | o = ⟨w.system.kernel.nextId⟩ ∧
    ∃ e ∈ (w.step (.act id deed)).1, e.allocates = true}
  let child : Set Cell := {c | c = .process ⟨w.system.sched.nextProcessId⟩ ∧
    ∃ e ∈ (w.step (.act id deed)).1, e.isSpawn = true}
  have hholds : w.Holds (w.side id) (K ∪ fresh) := by
    refine ⟨fun i p a c hi hp hc => Or.inl (h.holds.named i p a c hi hp hc), ?_⟩
    rintro o (ho | ⟨rfl, e, he, halloc⟩) a hpass
    · exact Or.inl (h.holds.passes o ho a hpass)
    · obtain ⟨queue, hq, -⟩ := hpass
      obtain ⟨-, hnone, -⟩ := Contents.object.inj (hobject e he halloc).1
      cases hnone.symm.trans hq
  have hapart : Disjoint (w.reach !w.side id) (K ∪ fresh) := by
    rw [Set.disjoint_union_right]
    refine ⟨h.apart, Set.disjoint_right.mpr ?_⟩
    rintro o ⟨rfl, e, he, halloc⟩
    exact (hobject e he halloc).2.2
  have hagree : Agree System.view (w.cells (w.side id) (K ∪ fresh) ∪ child) w.system v.system := by
    rintro c ((rfl | hprocess' | ⟨o, ho | ⟨rfl, e, he, halloc⟩, rfl⟩) | ⟨rfl, e, he, hspawn⟩)
    · exact h.agree _ (Or.inl rfl)
    · exact h.agree _ (Or.inr (Or.inl hprocess'))
    · exact h.agree _ (Or.inr (Or.inr ⟨o, ho, rfl⟩))
    · obtain ⟨hw, hv, -⟩ := hobject e he halloc
      exact hv.trans hw.symm
    · obtain ⟨hw, hv⟩ := hprocess e he hspawn
      exact hv.trans hw.symm
  have hlocal : Local System.view (w.cells (w.side id) (K ∪ fresh) ∪ child) w.system
      (·.act id deed) := by
    refine Deed.local (covers hholds Set.subset_union_left) (fun _ => Or.inl (Or.inl rfl)) ?_ ?_
    · exact fun e he halloc => Or.inl (Or.inr (Or.inr ⟨_, Or.inr ⟨rfl, e, he, halloc⟩, rfl⟩))
    · exact fun e he hspawn => Or.inr ⟨rfl, e, he, hspawn⟩
  obtain ⟨hresult, htracks⟩ := hlocal _ hagree
  obtain ⟨hholds', hframe⟩ : (w.step (.act id deed)).2.Holds (w.side id) (K ∪ fresh) ∧
      Frame w (w.step (.act id deed)).2 (w.side id) (K ∪ fresh) := by
    apply hholds.act
    · exact fun e he halloc => Or.inr ⟨rfl, e, he, halloc⟩
    · exact fun e he hspawn => Contents.process.inj (hprocess e he hspawn).1
  refine ⟨hresult, K ∪ fresh, Set.subset_union_left, ?_, hholds', ?_, ?_⟩
  · rw [step_act, step_act, hresult, h.side]
  · exact hapart.mono_left (hframe.reach_subset hapart)
  · intro c hc
    have hE : c ∈ w.cells (w.side id) (K ∪ fresh) ∪ child := by
      rcases hc with rfl | ⟨i, hi, rfl⟩ | hobject'
      · exact Or.inl (Or.inl rfl)
      · rcases w.side_act id deed i with hside | ⟨rfl, hspawn⟩
        · exact Or.inl (Or.inr (Or.inl ⟨i, hside.symm.trans hi, rfl⟩))
        · exact Or.inr ⟨rfl, hspawn⟩
      · exact Or.inl (Or.inr (Or.inr hobject'))
    rw [step_act, step_act]
    exact htracks.inside c hE

theorem foreign (h : Alike (!w.side id) K w v) (hquiet : deed.creates = false) :
    Alike (!w.side id) K (w.step (.act id deed)).2 v := by
  have hapart := h.apart
  rw [Bool.not_not] at hapart
  have hnone := w.system.calls_create id hquiet
  let E : Set Cell := {c | (∃ i, w.side i = w.side id ∧ c = .process i) ∨
    ∃ o ∈ w.reach (w.side id), c = .object o}
  have hcovers : Covers E w.system id := by
    have hholds := w.holds_reach_self (w.side id)
    exact ⟨Or.inl ⟨id, rfl, rfl⟩, fun p a c hp hc => Or.inr ⟨_, hholds.named id p a c rfl hp hc, rfl⟩⟩
  have hlocal : Local System.view E w.system (·.act id deed) := by
    apply Deed.local hcovers
    · intro hcreates
      cases hquiet.symm.trans hcreates
    · intro e he halloc
      cases (hnone e he).1.symm.trans halloc
    · intro e he hspawn
      cases (hnone e he).2.symm.trans hspawn
  have hkept (c : Cell) (hc : c ∉ E) : (w.step (.act id deed)).2.system.view c = w.system.view c := by
    rw [step_act]
    exact (hlocal _ fun _ _ => rfl).2.outside c hc
  have hside : (w.step (.act id deed)).2.side = w.side := by
    funext i
    rcases w.side_act id deed i with hi | ⟨-, e, he, hspawn⟩
    · exact hi
    · cases (hnone e he).2.symm.trans hspawn
  have hprocess (i : ProcessId) (hi : w.side i = !w.side id) : Cell.process i ∉ E := by
    rintro (⟨j, hj, heq⟩ | ⟨o, -, heq⟩)
    · obtain rfl := Cell.process.inj heq
      exact Bool.not_ne_self _ (hi.symm.trans hj)
    · cases heq
  have hobject (o : ObjectId) (ho : o ∈ K) : Cell.object o ∉ E := by
    rintro (⟨j, -, heq⟩ | ⟨o', ho', heq⟩)
    · cases heq
    · obtain rfl := Cell.object.inj heq
      exact Set.disjoint_left.mp hapart ho' ho
  have hcounters : Cell.counters ∉ E := by
    rintro (⟨j, -, heq⟩ | ⟨o, -, heq⟩) <;> cases heq
  refine ⟨h.side.trans hside.symm, ⟨fun i p a c hi hp hc => ?_, fun o ho a hpass => ?_⟩, ?_, ?_⟩
  · rw [hside] at hi
    have hp' := (Contents.process.inj (hkept _ (hprocess i hi))).symm.trans hp
    exact h.holds.named i p a c hi hp' hc
  · obtain ⟨queue, hq, hm⟩ := hpass
    obtain ⟨-, hqueue, -⟩ := Contents.object.inj (hkept _ (hobject o ho))
    exact h.holds.passes o ho a ⟨queue, hqueue.symm.trans hq, hm⟩
  · have hholds : (w.step (.act id deed)).2.Holds (w.side id) (w.reach (w.side id)) ∧
        Frame w (w.step (.act id deed)).2 (w.side id) (w.reach (w.side id)) := by
      apply (w.holds_reach_self (w.side id)).act
      · exact fun e he halloc => by cases (hnone e he).1.symm.trans halloc
      · exact fun e he hspawn => by cases (hnone e he).2.symm.trans hspawn
    rw [Bool.not_not]
    exact hapart.mono_left hholds.1.reach_subset
  · intro c hc
    rw [cells, hside] at hc
    have hE : c ∉ E := by
      rcases hc with rfl | ⟨i, hi, rfl⟩ | ⟨o, ho, rfl⟩
      · exact hcounters
      · exact hprocess i hi
      · exact hobject o ho
    exact (h.agree c hc).trans (hkept c hE).symm

theorem scheduleNext (h : Alike g K w v) :
    (v.system.step .scheduleNext).1 = (w.system.step .scheduleNext).1 ∧
      Alike g K (w.step .scheduleNext).2 (v.step .scheduleNext).2 := by
  obtain ⟨hnext, hpid, hready⟩ := h.counters
  have hview (u : Split) (c : Cell) (hc : c ≠ .counters) :
      (u.step .scheduleNext).2.system.view c = u.system.view c := by
    cases c with
    | object o => rfl
    | process i =>
      exact congrArg (fun m : Std.ExtTreeMap ProcessId Process => Contents.process m[i]?)
        u.system.sched.scheduleNext_processes
    | counters => exact absurd rfl hc
  have hprocess (i : ProcessId) : (w.step .scheduleNext).2.system.sched.process i =
      w.system.sched.process i := Contents.process.inj (hview w (.process i) nofun)
  have hturn : v.system.sched.scheduleNext.1 = w.system.sched.scheduleNext.1 ∧
      v.system.sched.scheduleNext.2.readyQueue = w.system.sched.scheduleNext.2.readyQueue := by
    unfold Scheduler.scheduleNext
    rw [hready]
    cases hq : w.system.sched.readyQueue with
    | nil => exact ⟨rfl, hready⟩
    | cons i rest => exact ⟨rfl, rfl⟩
  refine ⟨congrArg (fun turn => Except.ok (Value.turn turn)) hturn.1, h.side,
    ⟨fun i p a c hi hp hc => ?_, h.holds.passes⟩, ?_, fun c hc => ?_⟩
  · exact h.holds.named i p a c hi ((hprocess i).symm.trans hp) hc
  · rw [(w.reach_housekeeping (!g)).1]
    exact h.apart
  · by_cases hcounters : c = .counters
    · subst hcounters
      have hids (s : Scheduler) := s.scheduleNext_nextProcessId
      change Contents.counters v.system.kernel.nextId v.system.sched.scheduleNext.2.nextProcessId
          v.system.sched.scheduleNext.2.readyQueue = Contents.counters w.system.kernel.nextId
            w.system.sched.scheduleNext.2.nextProcessId w.system.sched.scheduleNext.2.readyQueue
      rw [hids, hids, hnext, hpid, hturn.2]
    · rw [hview v c hcounters, hview w c hcounters]
      exact h.agree c hc

theorem reclaim (h : Alike g K w v) : Alike g K (w.step .reclaim).2 (v.step .reclaim).2 := by
  refine ⟨h.side, ⟨h.holds.named, h.holds.passes⟩, h.apart, fun c hc => ?_⟩
  have hcell := h.agree c hc
  cases c with
  | object o =>
    obtain ⟨hepoch, hqueue, hbytes⟩ := Contents.object.inj hcell
    have hexists : v.system.kernel.objectExists o = w.system.kernel.objectExists o := by
      rw [Bool.eq_iff_iff, Kernel.objectExists_iff, Kernel.objectExists_iff, hepoch]
    change Contents.object v.system.kernel.epochs[o]? v.system.channels.queues[o]?
        (v.system.memory.reclaim v.system.kernel).2.regions[o]? =
      Contents.object w.system.kernel.epochs[o]? w.system.channels.queues[o]?
        (w.system.memory.reclaim w.system.kernel).2.regions[o]?
    simp only [RegionRegistry.reclaim, Std.ExtTreeMap.getElem?_filter', hepoch, hqueue, hbytes, hexists]
  | process i => exact hcell
  | counters => exact hcell

end Split.Alike

/-- The objects that the group could reach at some time of the run. -/
def Split.ever (g : Bool) (tr : List SplitEntry) (w : Split) : Set ObjectId :=
  {o | o ∈ w.reach g ∨ ∃ e ∈ tr, o ∈ e.before.reach g}

/-- Counts and answers depend on the calls and what they returned. -/
theorem counts_congr {l l' : List SystemEntry}
    (h : l.map (fun e => (e.call, e.outcome)) = l'.map fun e => (e.call, e.outcome)) :
    objectCount l = objectCount l' ∧ spawnCount l = spawnCount l' ∧ answers l = answers l' := by
  have hcount (φ : Call × Outcome → Bool) : l.countP (fun e => φ (e.call, e.outcome)) =
      l'.countP fun e => φ (e.call, e.outcome) := by
    have hmap (l : List SystemEntry) : l.countP (fun e => φ (e.call, e.outcome)) =
        (l.map fun e => (e.call, e.outcome)).countP φ := List.countP_map.symm
    rw [hmap, hmap, h]
  have hanswers (l : List SystemEntry) : answers l =
      (l.map fun e => (e.call, e.outcome)).filter fun x => !x.1.isReclaim := by
    rw [answers, List.filter_map]
    rfl
  refine ⟨hcount fun x => allocates ⟨.new, x.1, x.2, .new⟩,
    hcount fun x => isSpawn ⟨.new, x.1, x.2, .new⟩, ?_⟩
  rw [hanswers, hanswers, h]

theorem systemTrace_append (tr later : List SplitEntry) :
    systemTrace (tr ++ later) = systemTrace tr ++ systemTrace later := List.flatMap_append ..

theorem systemTrace_entry (w : Split) (m : Move) :
    systemTrace [entry Split.step w m] = (w.step m).1 := List.flatMap_singleton ..

section Unwinding
variable {first : List SystemEntry} {w₀ w v : Split} {tr tr' : List SplitEntry} {g : Bool}

/-- The bounds on ids, and nothing created outside of the group. -/
structure Quiet (first : List SystemEntry) (g : Bool) (tr : List SplitEntry) : Prop where
  objects : objectCount (first ++ systemTrace tr) ≤ 2 ^ 64
  spawns : spawnCount (first ++ systemTrace tr) ≤ 2 ^ 64
  quiet : ∀ e ∈ tr, ∀ id deed, e.call = .act id deed → e.before.side id ≠ g → deed.creates = false

/-- A run and the run without the deeds of the other group. -/
structure Follows (g : Bool) (w₀ : Split) (tr : List SplitEntry) (w : Split) (tr' : List SplitEntry)
    (v : Split) (K : Set ObjectId) : Prop where
  alike : Split.Alike g K w v
  answers : answers (systemTrace tr') = answers (systemTrace (shown (Split.foreign g) tr))
  objects : objectCount (systemTrace tr') ≤ objectCount (systemTrace tr)
  spawns : spawnCount (systemTrace tr') ≤ spawnCount (systemTrace tr)
  start : w₀.reach g ⊆ K
  ever : ∀ e ∈ tr, e.before.reach g ⊆ K

theorem Quiet.of_snoc {e : SplitEntry} (h : Quiet first g (tr ++ [e])) : Quiet first g tr := by
  have hle (φ : SystemEntry → Bool) : (first ++ systemTrace tr).countP φ ≤
      (first ++ systemTrace (tr ++ [e])).countP φ := by
    rw [systemTrace_append, ← List.append_assoc]
    exact (List.sublist_append_left ..).countP_le
  exact ⟨(hle _).trans h.objects, (hle _).trans h.spawns,
    fun e he => h.quiet e (List.mem_append_left _ he)⟩

theorem Follows.hides {K : Set ObjectId} (h : Follows g w₀ tr w tr' v K) {m : Move}
    (hquiet : Quiet first g (tr ++ [entry Split.step w m]))
    (hm : Split.foreign g (entry Split.step w m) = true) :
    Follows g w₀ (tr ++ [entry Split.step w m]) (w.step m).2 tr' v K := by
  have hcount (φ : SystemEntry → Bool) : (systemTrace tr).countP φ ≤
      (systemTrace (tr ++ [entry Split.step w m])).countP φ := by
    rw [systemTrace_append]
    exact (List.sublist_append_left ..).countP_le
  cases m with
  | act id deed =>
    have hid : w.side id ≠ g := by simpa [Split.foreign, entry] using hm
    have hcreates := hquiet.quiet _ (List.mem_append_right _ List.mem_cons_self) id deed rfl hid
    obtain rfl : g = !w.side id := Bool.eq_not.mpr (Ne.symm hid)
    refine ⟨h.alike.foreign hcreates, ?_, h.objects.trans (hcount _), h.spawns.trans (hcount _),
      h.start, ?_⟩
    · rw [h.answers, shown, shown, List.filter_append]
      simp [hm]
    · intro e he
      rcases List.mem_append.mp he with he | he
      · exact h.ever e he
      · obtain rfl := List.mem_singleton.mp he
        exact h.alike.holds.reach_subset
  | scheduleNext => cases hm
  | reclaim => cases hm

/-- A step that both runs take, from states that runs of the system reach. -/
theorem Follows.shows {K : Set ObjectId} (h : Follows g w₀ tr w tr' v K) {m : Move}
    (hw : SystemRun (first ++ systemTrace tr) w.system)
    (hv : SystemRun (first ++ systemTrace tr') v.system)
    (hquiet : Quiet first g (tr ++ [entry Split.step w m]))
    (hm : Split.foreign g (entry Split.step w m) = false) :
    ∃ K', Follows g w₀ (tr ++ [entry Split.step w m]) (w.step m).2 (tr' ++ [entry Split.step v m])
      (v.step m).2 K' := by
  have hever : ∀ e ∈ tr ++ [entry Split.step w m], e.before.reach g ⊆ K := by
    intro e he
    rcases List.mem_append.mp he with he | he
    · exact h.ever e he
    · obtain rfl := List.mem_singleton.mp he
      exact h.alike.holds.reach_subset
  have hshown : systemTrace (shown (Split.foreign g) (tr ++ [entry Split.step w m])) =
      systemTrace (shown (Split.foreign g) tr) ++ (w.step m).1 := by
    rw [shown_append, systemTrace_append, ← systemTrace_entry]
    simp [shown, hm]
  have hfollows {K' : Set ObjectId} (hK : K ⊆ K') (halike : Split.Alike g K' (w.step m).2 (v.step m).2)
      (hobjects : objectCount (v.step m).1 = objectCount (w.step m).1)
      (hspawns : spawnCount (v.step m).1 = spawnCount (w.step m).1)
      (hanswers : Muaddib.answers (v.step m).1 = Muaddib.answers (w.step m).1) :
      Follows g w₀ (tr ++ [entry Split.step w m]) (w.step m).2 (tr' ++ [entry Split.step v m])
        (v.step m).2 K' := by
    refine ⟨halike, ?_, ?_, ?_, h.start.trans hK, fun e he => (hever e he).trans hK⟩
    · rw [hshown, systemTrace_append, systemTrace_entry, answers_append, answers_append, h.answers,
        hanswers]
    · rw [systemTrace_append, systemTrace_append, systemTrace_entry, systemTrace_entry]
      unfold objectCount at *
      rw [List.countP_append, List.countP_append, hobjects]
      exact Nat.add_le_add_right h.objects _
    · rw [systemTrace_append, systemTrace_append, systemTrace_entry, systemTrace_entry]
      unfold spawnCount at *
      rw [List.countP_append, List.countP_append, hspawns]
      exact Nat.add_le_add_right h.spawns _
  cases m with
  | act id deed =>
    have hid : w.side id = g := by simpa [Split.foreign, entry] using hm
    have hlt (φ : SystemEntry → Bool) (hle : (systemTrace tr').countP φ ≤ (systemTrace tr).countP φ)
        (hbound : (first ++ systemTrace (tr ++ [entry Split.step w (.act id deed)])).countP φ ≤ 2 ^ 64)
        {e : SystemEntry} (he : e ∈ (w.step (.act id deed)).1) (hφ : φ e = true) :
        (first ++ systemTrace tr).countP φ < 2 ^ 64 ∧ (first ++ systemTrace tr').countP φ < 2 ^ 64 := by
      have hpos := List.countP_pos_iff.mpr ⟨e, he, hφ⟩
      rw [systemTrace_append, systemTrace_entry, List.countP_append, List.countP_append] at hbound
      rw [List.countP_append, List.countP_append]
      omega
    obtain ⟨hresult, K', hK, halike⟩ := h.alike.own hid deed
      (fun e he halloc => by
        obtain ⟨hltw, hltv⟩ := hlt allocates h.objects hquiet.objects he halloc
        obtain ⟨hnext, hfresh⟩ := hw.fresh_object hltw
        refine ⟨hfresh, (hv.fresh_object hltv).2, fun hreach => ?_⟩
        have hused := Split.reach_lt hw hltw.le (!g) _ hreach
        rw [hnext] at hused
        exact lt_irrefl _ hused)
      fun e he hspawn => by
        obtain ⟨hltw, hltv⟩ := hlt isSpawn h.spawns hquiet.spawns he hspawn
        exact ⟨hw.fresh_process hltw, hv.fresh_process hltv⟩
    obtain ⟨hobjects, hspawns, hanswers⟩ := counts_congr hresult
    exact ⟨K', hfollows hK halike hobjects hspawns hanswers⟩
  | scheduleNext =>
    obtain ⟨hresult, halike⟩ := h.alike.scheduleNext
    have hentries : (v.step .scheduleNext).1.map (fun e => (e.call, e.outcome)) =
        (w.step .scheduleNext).1.map fun e => (e.call, e.outcome) :=
      congrArg (fun outcome => [(Call.scheduleNext, outcome)]) hresult
    obtain ⟨hobjects, hspawns, hanswers⟩ := counts_congr hentries
    exact ⟨K, hfollows subset_rfl halike hobjects hspawns hanswers⟩
  | reclaim => exact ⟨K, hfollows subset_rfl h.alike.reclaim rfl rfl rfl⟩

/-- A run whose deeds outside of the group create nothing is followed by the run without them. -/
theorem follows_alone (reached : SystemRun first w₀.system)
    (apart : Disjoint (w₀.reach true) (w₀.reach false))
    (run : Run Split.step (fun _ _ => True) w₀ tr w) (quiet : Quiet first g tr) :
    ∃ K, Follows g w₀ tr w (trace Split.step w₀ (purge (Split.foreign g) tr))
      (final Split.step w₀ (purge (Split.foreign g) tr)) K := by
  have hstart : Follows g w₀ [] w₀ [] w₀ (w₀.reach g) := by
    refine ⟨⟨rfl, w₀.holds_reach_self g, ?_, fun _ _ => rfl⟩, rfl, le_rfl, le_rfl, subset_rfl, by simp⟩
    cases g with
    | true => exact apart.symm
    | false => exact apart
  apply unwinding (fun tr w tr' v => Quiet first g tr → ∃ K, Follows g w₀ tr w tr' v K) run
  · exact fun _ => ⟨_, hstart⟩
  · intro tr w tr' v m _ _ _ ih hm hquiet
    obtain ⟨K, hfollows⟩ := ih hquiet.of_snoc
    exact ⟨K, hfollows.hides hquiet hm⟩
  · intro tr w tr' v m run _ run' ih hm hquiet
    obtain ⟨K, hfollows⟩ := ih hquiet.of_snoc
    exact hfollows.shows (reached.moves run) (reached.moves run') hquiet hm
  · exact quiet

/-- A group cannot tell whether another, with which it reaches no common object, runs at all, if that
one creates nothing: its steps, and the turns of the scheduler, return what they return when the other
does nothing, and its processes and all it could ever reach end up the same. -/
theorem other_group_unseen (g : Bool) (reached : SystemRun first w₀.system)
    (apart : Disjoint (w₀.reach true) (w₀.reach false))
    (run : Run Split.step (fun _ _ => True) w₀ tr w)
    (objects : objectCount (first ++ systemTrace tr) ≤ 2 ^ 64)
    (spawns : spawnCount (first ++ systemTrace tr) ≤ 2 ^ 64)
    (quiet : ∀ e ∈ tr, ∀ id deed, e.call = .act id deed → e.before.side id ≠ g →
      deed.creates = false) :
    let alone := purge (Split.foreign g) tr
    answers (systemTrace (trace Split.step w₀ alone)) =
        answers (systemTrace (shown (Split.foreign g) tr)) ∧
      (final Split.step w₀ alone).side = w.side ∧
      Agree System.view (w.cells g (Split.ever g tr w)) w.system (final Split.step w₀ alone).system := by
  intro alone
  obtain ⟨K, hfollows⟩ := follows_alone (g := g) reached apart run ⟨objects, spawns, quiet⟩
  refine ⟨hfollows.answers, hfollows.alike.side, fun c hc => hfollows.alike.agree c ?_⟩
  rcases hc with rfl | hprocess | ⟨o, ho | ⟨e, he, ho⟩, rfl⟩
  · exact Or.inl rfl
  · exact Or.inr (Or.inl hprocess)
  · exact Or.inr (Or.inr ⟨o, hfollows.alike.holds.reach_subset ho, rfl⟩)
  · exact Or.inr (Or.inr ⟨o, hfollows.ever e he ho, rfl⟩)

end Unwinding

theorem Split.apart_of_bare (w : Split) {i : ProcessId} (halone : ∀ j, w.side j = true → j = i)
    (hbare : w.system.sched.process i = some (Process.new i)) :
    Disjoint (w.reach true) (w.reach false) := by
  rw [Split.reach_eq_empty (w := w) (g := true)]
  · exact Set.empty_disjoint _
  · intro j a hj
    obtain rfl := halone j hj
    rw [System.table, hbare]
    exact Process.capability_new ..

/-- The second process writes to its region and destroys it, while the first uses a channel. -/
theorem other_group_unseen_region :
    let w₀ : Split := ⟨final System.step .new [.newRegion 4, .spawn [],
      .spawn [⟨⟨0⟩, .READ ||| .WRITE ||| .GRANT ||| .DESTROY, 0⟩]], fun i => i = ⟨0⟩⟩
    let tr := trace Split.step w₀ [.act ⟨1⟩ (.write ⟨0⟩ 0 [1]), .act ⟨0⟩ .newChannel, .scheduleNext,
      .act ⟨1⟩ (.destroyRegion ⟨0⟩), .act ⟨0⟩ (.send ⟨0⟩ [] 7), .act ⟨0⟩ (.receive ⟨0⟩)]
    let alone := purge (Split.foreign true) tr
    alone.length = 4 ∧ answers (systemTrace (trace Split.step w₀ alone)) =
      answers (systemTrace (shown (Split.foreign true) tr)) := by
  intro w₀ tr alone
  have hreached : SystemRun (trace System.step .new [.newRegion 4, .spawn [],
      .spawn [⟨⟨0⟩, .READ ||| .WRITE ||| .GRANT ||| .DESTROY, 0⟩]]) w₀.system :=
    Run.of_calls (by decide +kernel)
  have hbare : w₀.system.sched.process ⟨0⟩ = some (Process.new ⟨0⟩) := by decide +kernel
  have hapart : Disjoint (w₀.reach true) (w₀.reach false) :=
    w₀.apart_of_bare (fun i hi => of_decide_eq_true hi) hbare
  have hquiet : ∀ e ∈ tr, (match e.call with
      | .act id deed => e.before.side id || !deed.creates
      | _ => true) = true := by decide +kernel
  have hrun : Run Split.step (fun _ _ => True) w₀ tr (final Split.step w₀ _) :=
    Run.of_calls fun _ _ => trivial
  have hunseen := other_group_unseen true hreached hapart hrun
    (by decide +kernel) (by decide +kernel) fun e he id deed hcall hside => by
      have hdeed := hquiet e he
      rw [hcall] at hdeed
      simpa [hside] using hdeed
  exact ⟨by decide +kernel, hunseen.1⟩

/-- What the other group creates shows: both groups take their ids from one counter. -/
theorem creations_seen :
    ¬∀ (first : List SystemEntry) (w₀ w : Split) (tr : List SplitEntry), SystemRun first w₀.system →
      Disjoint (w₀.reach true) (w₀.reach false) → Run Split.step (fun _ _ => True) w₀ tr w →
      answers (systemTrace (trace Split.step w₀ (purge (Split.foreign true) tr))) =
        answers (systemTrace (shown (Split.foreign true) tr)) := by
  intro hclaim
  let w₀ : Split := ⟨final System.step .new [.spawn [], .spawn []], fun i => i = ⟨0⟩⟩
  let moves : List Move := [.act ⟨1⟩ (.newObject .NONE), .act ⟨0⟩ (.newObject .NONE)]
  have hreached : SystemRun (trace System.step .new [.spawn [], .spawn []]) w₀.system :=
    Run.of_calls (by decide +kernel)
  have hbare : w₀.system.sched.process ⟨0⟩ = some (Process.new ⟨0⟩) := by decide +kernel
  have hapart : Disjoint (w₀.reach true) (w₀.reach false) :=
    w₀.apart_of_bare (fun i hi => of_decide_eq_true hi) hbare
  have hsame := hclaim _ w₀ _ (trace Split.step w₀ moves) hreached hapart (Run.of_calls fun _ _ => trivial)
  have hdiffer : (answers (systemTrace (trace Split.step w₀ (purge (Split.foreign true)
      (trace Split.step w₀ moves))))).map Prod.snd ≠ (answers (systemTrace
        (shown (Split.foreign true) (trace Split.step w₀ moves)))).map Prod.snd := by decide +kernel
  exact hdiffer (congrArg (List.map Prod.snd) hsame)

end Muaddib
