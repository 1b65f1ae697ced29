import Muaddib.ChaosFaults

/-! # What the audit establishes

An audit passes exactly when the model agrees with the kernel, for every world and not only for those
of a run. The check of causality passes exactly when the stamps order events as the graph does. -/
namespace Muaddib.Chaos
open Std (ExtTreeMap)
open CausalGraphs

section Checks
variable {α β : Type}

theorem bind_ok_iff {x : Check α} {f : α → Check β} {b : β} :
    x >>= f = .ok b ↔ ∃ a, x = .ok a ∧ f a = .ok b := by
  refine ⟨ok_of_bind, ?_⟩
  rintro ⟨a, rfl, h⟩
  exact h

theorem ensure_ok_iff {cond : Bool} {message : String} {u : Unit} :
    ensure cond message = .ok u ↔ cond = true := by
  cases cond with
  | false => exact ⟨nofun, nofun⟩
  | true => exact ⟨fun _ => rfl, fun _ => rfl⟩

theorem expect_ok_iff {message : String} {x : Option α} {a : α} :
    expect message x = .ok a ↔ x = some a := by
  cases x with
  | none => exact ⟨nofun, nofun⟩
  | some b => exact ⟨fun h => congrArg some (Except.ok.inj h), fun h => congrArg Except.ok (Option.some.inj h)⟩

theorem index_ok_iff {xs : List α} {i : ℕ} {a : α} : index xs i = .ok a ↔ xs[i]? = some a := by
  refine ⟨fun h => ?_, index_eq⟩
  rw [index] at h
  cases hget : xs[i]? with
  | none =>
    rw [hget] at h
    cases h
  | some b =>
    rw [hget] at h
    cases h
    rfl

theorem forM_ok_iff {xs : List α} {f : α → Check Unit} :
    xs.forM f = .ok () ↔ ∀ x ∈ xs, f x = .ok () := by
  refine ⟨fun h => ?_, forM_ok⟩
  induction xs with
  | nil => exact fun x hx => by cases hx
  | cons x xs ih =>
    obtain ⟨u, hfirst, hrest⟩ := ok_of_bind (f := fun _ => xs.forM f) h
    intro y hy
    rcases List.mem_cons.mp hy with rfl | hy
    · exact hfirst
    · exact ih hrest y hy

end Checks

section Keys
variable {κ : Type*} [Ord κ] [Std.TransOrd κ] [Std.LawfulEqOrd κ] {α β : Type*}

/-- Two maps list the same keys when each has the keys of the other. -/
theorem keys_eq_iff {s : ExtTreeMap κ α} {t : ExtTreeMap κ β} :
    s.keys = t.keys ↔ ∀ k : κ, k ∈ s ↔ k ∈ t := by
  constructor
  · intro h k
    rw [← ExtTreeMap.mem_keys, h, ExtTreeMap.mem_keys]
  · intro h
    have hperm : s.keys.Perm t.keys := by
      apply (List.perm_ext_iff_of_nodup ExtTreeMap.nodup_keys ExtTreeMap.nodup_keys).mpr
      intro k
      rw [ExtTreeMap.mem_keys, ExtTreeMap.mem_keys]
      exact h k
    apply hperm.eq_of_pairwise _ ExtTreeMap.ordered_keys ExtTreeMap.ordered_keys
    intro a b _ _ hlt hgt
    rw [Std.OrientedCmp.gt_iff_lt.symm] at hgt
    rw [hgt] at hlt
    cases hlt

end Keys

/-- A table agrees with the capabilities of its process. Epochs are not compared. -/
structure TableAgrees (w : World) (p : Process) (table : ExtTreeMap Handle CapModel) : Prop where
  handles : ∀ h : Handle, h ∈ p.capabilities ↔ h ∈ table
  entries : ∀ (h : Handle) (m : CapModel), table[h]? = some m →
    ∃ cap, p.capability h = some cap ∧ w.objectId m.obj = .ok cap.object ∧ cap.rights = m.rights

/-- The model agrees with the kernel in everything the audit looks at. -/
structure Agrees (w : World) : Prop where
  tables : ∀ pm ∈ w.procs, ∃ p, w.sched.process pm.pid = some p ∧ TableAgrees w p pm.table
  liveness : ∀ x ∈ w.stash, w.predictCheck x.2 .NONE = .ok (w.k.check x.1 .NONE)
  count : w.mem.regionCount = (w.regions.filter fun region => region.alive).length
  bytes : ∀ r region, w.regions[r]? = some region → ∃ found, w.auditor r = .ok found ∧
    ∀ cap, found = some cap → w.mem.inspect w.k cap id = .ok region.bytes

section Audits
variable {w : World}

theorem sweepTable_ok_iff {i : ℕ} {p : Process} {entries : List (Handle × CapModel)} :
    w.sweepTable i p entries = .ok () ↔ ∀ x ∈ entries, ∃ cap, p.capability x.1 = some cap ∧
      w.objectId x.2.obj = .ok cap.object ∧ cap.rights = x.2.rights := by
  induction entries with
  | nil => exact ⟨fun _ => nofun, fun _ => rfl⟩
  | cons x entries ih =>
    obtain ⟨h, m⟩ := x
    rw [List.forall_mem_cons, ← ih, World.sweepTable]
    simp only [bind_ok_iff, expect_ok_iff, ensure_ok_iff, Bool.and_eq_true, beq_iff_eq]
    constructor
    · rintro ⟨cap, hcap, object, hobject, u, ⟨rfl, hrights⟩, hrest⟩
      exact ⟨⟨cap, hcap, hobject, hrights⟩, hrest⟩
    · rintro ⟨⟨cap, hcap, hobject, hrights⟩, hrest⟩
      exact ⟨cap, hcap, cap.object, hobject, (), ⟨rfl, hrights⟩, hrest⟩

theorem sweepProcs_ok_iff {i : ℕ} {procs : List ProcModel} : w.sweepProcs i procs = .ok () ↔
    ∀ pm ∈ procs, ∃ p, w.sched.process pm.pid = some p ∧ TableAgrees w p pm.table := by
  induction procs generalizing i with
  | nil => exact ⟨fun _ => nofun, fun _ => rfl⟩
  | cons pm procs ih =>
    rw [List.forall_mem_cons, ← ih (i := i + 1), World.sweepProcs]
    simp only [bind_ok_iff, expect_ok_iff, ensure_ok_iff, beq_iff_eq]
    constructor
    · rintro ⟨p, hp, u, hhandles, ⟨⟩, htable, hrest⟩
      rw [sweepTable_ok_iff] at htable
      refine ⟨⟨p, hp, keys_eq_iff.mp hhandles, fun h m hm => ?_⟩, hrest⟩
      exact htable (h, m) (ExtTreeMap.mem_toList_iff_getElem?_eq_some.mpr hm)
    · rintro ⟨⟨p, hp, hagrees⟩, hrest⟩
      refine ⟨p, hp, (), keys_eq_iff.mpr hagrees.handles, (), sweepTable_ok_iff.mpr fun x hx => ?_, hrest⟩
      exact hagrees.entries x.1 x.2 (ExtTreeMap.mem_toList_iff_getElem?_eq_some.mp hx)

theorem sweepStash_ok_iff {stash : List (Capability × CapModel)} : w.sweepStash stash = .ok () ↔
    ∀ x ∈ stash, w.predictCheck x.2 .NONE = .ok (w.k.check x.1 .NONE) := by
  induction stash with
  | nil => exact ⟨fun _ => nofun, fun _ => rfl⟩
  | cons x stash ih =>
    obtain ⟨cap, m⟩ := x
    rw [List.forall_mem_cons, ← ih, World.sweepStash]
    simp only [bind_ok_iff, ensure_ok_iff, beq_iff_eq]
    constructor
    · rintro ⟨predicted, hpredicted, u, rfl, hrest⟩
      exact ⟨hpredicted, hrest⟩
    · rintro ⟨hpredicted, hrest⟩
      exact ⟨_, hpredicted, (), rfl, hrest⟩

theorem sweepRegions_ok_iff {k : ℕ} {regions : List RegionModel} :
    w.sweepRegions k regions = .ok () ↔ ∀ r region, regions[r]? = some region →
      ∃ found, w.auditor (k + r) = .ok found ∧
        ∀ cap, found = some cap → w.mem.inspect w.k cap id = .ok region.bytes := by
  induction regions generalizing k with
  | nil => exact ⟨fun _ r region hr => (by cases hr), fun _ => rfl⟩
  | cons region regions ih =>
    have hindex : ∀ r, k + 1 + r = k + (r + 1) := by
      intro r
      omega
    have hsplit : (∀ r region', (region :: regions)[r]? = some region' →
        ∃ found, w.auditor (k + r) = .ok found ∧
          ∀ cap, found = some cap → w.mem.inspect w.k cap id = .ok region'.bytes) ↔
        (∃ found, w.auditor k = .ok found ∧
          ∀ cap, found = some cap → w.mem.inspect w.k cap id = .ok region.bytes) ∧
        w.sweepRegions (k + 1) regions = .ok () := by
      rw [ih]
      constructor
      · exact fun h => ⟨h 0 region rfl, fun r region' hr => hindex r ▸ h (r + 1) region' hr⟩
      · rintro ⟨hfirst, hrest⟩ r region' hr
        cases r with
        | zero => exact Option.some.inj hr ▸ hfirst
        | succ r => exact hindex r ▸ hrest r region' hr
    rw [hsplit, World.sweepRegions, bind_ok_iff]
    constructor
    · rintro ⟨found, hfound, h⟩
      cases found with
      | none => exact ⟨⟨none, hfound, fun cap' hcap => (by cases hcap)⟩, h⟩
      | some cap =>
        obtain ⟨u, hcheck, hrest⟩ := ok_of_bind h
        rw [ensure_ok_iff, beq_iff_eq] at hcheck
        exact ⟨⟨some cap, hfound, fun cap' hcap => Option.some.inj hcap ▸ hcheck⟩, hrest⟩
    · rintro ⟨⟨found, hfound, hbytes⟩, hrest⟩
      refine ⟨found, hfound, ?_⟩
      cases found with
      | none => exact hrest
      | some cap =>
        apply bind_ok_iff.mpr
        exact ⟨(), ensure_ok_iff.mpr (beq_iff_eq.mpr (hbytes cap rfl)), hrest⟩

/-- The audit is exact: it passes if and only if the model agrees with the kernel. -/
theorem sweep_ok_iff (w : World) : w.sweep = .ok () ↔ Agrees w := by
  simp only [World.sweep, bind_ok_iff, ensure_ok_iff, beq_iff_eq]
  constructor
  · rintro ⟨⟨⟩, hprocs, ⟨⟩, hstash, u, hcount, hregions⟩
    refine ⟨sweepProcs_ok_iff.mp hprocs, sweepStash_ok_iff.mp hstash, hcount, fun r region hr => ?_⟩
    have hregion := sweepRegions_ok_iff.mp hregions r region hr
    rwa [Nat.zero_add] at hregion
  · rintro ⟨htables, hliveness, hcount, hbytes⟩
    refine ⟨(), sweepProcs_ok_iff.mpr htables, (), sweepStash_ok_iff.mpr hliveness, (), hcount, ?_⟩
    apply sweepRegions_ok_iff.mpr
    intro r region hr
    rw [Nat.zero_add]
    exact hbytes r region hr

end Audits

def graphOf (preds : List (List ℕ)) : List (Event Unit) := preds.map fun preds => ⟨(), preds, fun _ => 0⟩

/-- The stamps order the events of a graph as its paths do, and so do the Lamport times. -/
structure StampsAgree (preds : List (List ℕ)) (stamps : List EventStamp) : Prop where
  earlier : ∀ (j : ℕ) (ps : List ℕ), preds[j]? = some ps → ∀ p ∈ ps, p < j
  before : ∀ (i j : ℕ) (a b : EventStamp), i ≠ j → stamps[i]? = some a → stamps[j]? = some b →
    (a.happenedBefore b = true ↔ Path (graphOf preds) i j)
  lamport : ∀ (i j : ℕ) (a b : EventStamp), i ≠ j → stamps[i]? = some a → stamps[j]? = some b →
    Path (graphOf preds) i j → a.lamport < b.lamport

section Causality
variable {n : ℕ} {w : World}

theorem reachRow_bounds {earlier : List (List Bool)} {preds : List ℕ} {row row' : List Bool}
    (h : World.reachRow earlier preds row = .ok row') : ∀ p ∈ preds, p < earlier.length := by
  induction preds generalizing row with
  | nil => exact nofun
  | cons p preds ih =>
    obtain ⟨entry, -, h⟩ := ok_of_bind h
    obtain ⟨src, hsrc, h⟩ := ok_of_bind h
    rw [index_ok_iff] at hsrc
    rw [List.forall_mem_cons]
    exact ⟨(List.getElem?_eq_some_iff.mp hsrc).1, ih h⟩

theorem reachRows_bounds {rest : List (List ℕ)} {rows reach : List (List Bool)}
    (h : World.reachRows n rest rows = .ok reach) :
    ∀ (j : ℕ) (ps : List ℕ), rest[j]? = some ps → ∀ p ∈ ps, p < rows.length + j := by
  induction rest generalizing rows with
  | nil => exact nofun
  | cons preds rest ih =>
    obtain ⟨row, hrow, h⟩ := ok_of_bind h
    intro j ps hj
    cases j with
    | zero =>
      rw [← Option.some.inj hj]
      exact reachRow_bounds hrow
    | succ j =>
      have hlater := ih h j ps hj
      rw [List.length_append, List.length_singleton] at hlater
      intro p hp
      have hlt := hlater p hp
      omega

theorem checkPair_ok_iff {reach : List (List Bool)} {i j : ℕ} {row : List Bool} {truth : Bool}
    (hrow : reach[j]? = some row) (htruth : row[i]? = some truth) (a b : EventStamp) :
    World.checkPair reach i j a b = .ok () ↔
      (i ≠ j → (a.happenedBefore b = true ↔ truth = true) ∧ (truth = true → a.lamport < b.lamport)) := by
  rw [World.checkPair]
  split
  · next heq => exact ⟨fun _ hne => absurd heq hne, fun _ => rfl⟩
  · next hne =>
    rw [index_eq hrow, ok_bind, index_eq htruth, ok_bind, bind_ok_iff]
    constructor
    · rintro ⟨u, hagree, h⟩ -
      rw [ensure_ok_iff, beq_iff_eq] at hagree
      refine ⟨by rw [hagree], fun htrue => ?_⟩
      rw [if_pos htrue, ensure_ok_iff, decide_eq_true_eq] at h
      exact h
    · intro h
      obtain ⟨hagree, hlamport⟩ := h hne
      refine ⟨(), ensure_ok_iff.mpr (beq_iff_eq.mpr (Bool.eq_iff_iff.mpr hagree)), ?_⟩
      split
      · next htrue => exact ensure_ok_iff.mpr (decide_eq_true (hlamport htrue))
      · rfl

/-- The matrix is there as soon as all predecessors are earlier. -/
theorem exists_matrix (hlength : w.preds.length = w.stamps.length)
    (hearlier : ∀ (j : ℕ) (ps : List ℕ), w.preds[j]? = some ps → ∀ p ∈ ps, p < j) :
    ∃ reach, World.reachRows w.stamps.length w.preds [] = .ok reach ∧
      ∀ i j a b, w.stamps[i]? = some a → w.stamps[j]? = some b →
        (World.checkPair reach i j a b = .ok () ↔ (i ≠ j →
          (a.happenedBefore b = true ↔ Path (graphOf w.preds) i j) ∧
          (Path (graphOf w.preds) i j → a.lamport < b.lamport))) := by
  have hedges : List.Forall₂ (fun (e : Event Unit) preds => ∀ i, i ∈ preds ↔ i ∈ e.preds)
      (graphOf w.preds) w.preds := by
    rw [graphOf, List.forall₂_map_left_iff, List.forall₂_same]
    exact fun ps _ i => Iff.rfl
  have hgraph : (graphOf w.preds).length = w.stamps.length := by rw [graphOf, List.length_map, hlength]
  have hlook : ∀ (j : ℕ) (e : Event Unit), (graphOf w.preds)[j]? = some e → ∀ i ∈ e.preds, i < j := by
    intro j e he
    rw [graphOf, List.getElem?_map, Option.map_eq_some_iff] at he
    obtain ⟨ps, hps, rfl⟩ := he
    exact hearlier j ps hps
  obtain ⟨reach, hreach, hreachLength, hrows⟩ := reachRows_eq hlook hgraph hedges [] rfl
    (Nat.zero_le _) nofun
  refine ⟨reach, hreach, fun i j a b ha hb => ?_⟩
  have hi : i < w.stamps.length := (List.getElem?_eq_some_iff.mp ha).1
  have hj : j < w.stamps.length := (List.getElem?_eq_some_iff.mp hb).1
  obtain ⟨row, hrow⟩ := lookup (by omega : j < reach.length)
  obtain ⟨hrowLength, hreached⟩ := hrows j row hrow
  obtain ⟨truth, htruth⟩ := lookup (by omega : i < row.length)
  have hpath : truth = true ↔ Path (graphOf w.preds) i j := by
    rw [← hreached i, htruth, Option.some.injEq]
  rw [checkPair_ok_iff hrow htruth, hpath]

theorem checkPairs_ok_iff {stamps : List EventStamp} {reach : List (List Bool)} :
    (stamps.zipIdx.forM fun x => stamps.zipIdx.forM fun y =>
        World.checkPair reach x.2 y.2 x.1 y.1) = .ok () ↔
      ∀ i j a b, stamps[i]? = some a → stamps[j]? = some b → World.checkPair reach i j a b = .ok () := by
  rw [forM_ok_iff]
  simp only [forM_ok_iff, List.mem_zipIdx_iff_getElem?]
  exact ⟨fun h i j a b ha hb => h (a, i) ha (b, j) hb, fun h x hx y hy => h x.2 y.2 x.1 y.1 hx hy⟩

theorem stampsAgree_of_checked (hlength : w.preds.length = w.stamps.length)
    (h : w.checkCausality = .ok ()) : StampsAgree w.preds w.stamps := by
  obtain ⟨reach, hreach, hall⟩ := ok_of_bind h
  have hearlier : ∀ (j : ℕ) (ps : List ℕ), w.preds[j]? = some ps → ∀ p ∈ ps, p < j := by
    have hbounds := reachRows_bounds hreach
    simpa only [List.length_nil, Nat.zero_add] using hbounds
  obtain ⟨reach', hreach', hpair⟩ := exists_matrix hlength hearlier
  obtain rfl := Except.ok.inj (hreach.symm.trans hreach')
  have hagree := checkPairs_ok_iff.mp hall
  refine ⟨hearlier, fun i j a b hne ha hb => ?_, fun i j a b hne ha hb => ?_⟩
  · exact ((hpair i j a b ha hb).mp (hagree i j a b ha hb) hne).1
  · exact ((hpair i j a b ha hb).mp (hagree i j a b ha hb) hne).2

/-- The check of causality is exact: it passes if and only if the events look back and the stamps
order them as the graph does. -/
theorem checkCausality_ok_iff (w : World) (hlength : w.preds.length = w.stamps.length) :
    w.checkCausality = .ok () ↔ StampsAgree w.preds w.stamps := by
  refine ⟨stampsAgree_of_checked hlength, ?_⟩
  rintro ⟨hearlier, hbefore, hlamport⟩
  obtain ⟨reach, hreach, hpair⟩ := exists_matrix hlength hearlier
  apply bind_ok_iff.mpr
  refine ⟨reach, hreach, checkPairs_ok_iff.mpr fun i j a b ha hb => ?_⟩
  exact (hpair i j a b ha hb).mpr fun hne => ⟨hbefore i j a b hne ha hb, hlamport i j a b hne ha hb⟩

end Causality

def swappedStamps : World :=
  let (first, clock) := (EventClock.new (pidAt 0)).localEvent
  let (second, _) := clock.localEvent
  { World.boot with stamps := [second, first], preds := [[], [0]] }

/-- Exchanged stamps do not agree with their graph, because the check finds them. -/
theorem checkCausality_ok_iff_swapped : ¬StampsAgree swappedStamps.preds swappedStamps.stamps := by
  have hcaught : swappedStamps.checkCausality ≠ .ok () := by decide +kernel
  exact fun hagree => hcaught ((checkCausality_ok_iff swappedStamps rfl).mpr hagree)

end Muaddib.Chaos
