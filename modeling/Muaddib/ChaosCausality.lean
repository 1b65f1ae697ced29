import Muaddib.ChaosSpawns
import Muaddib.StampMeasures

/-! # The check of causality

The matrix the harness computes is the reachability of the event graph, and the stamps of a run
agree with it. -/
namespace Muaddib.Chaos
open LabelledRuns CausalGraphs

section Matrix
variable {K : Type*} {h : List (Event K)} {n : ℕ}

/-- The row of event `j`: what leads to it. -/
structure RowOf (h : List (Event K)) (n j : ℕ) (row : List Bool) : Prop where
  length : row.length = n
  reached : ∀ i, row[i]? = some true ↔ Path h i j

theorem path_iff_of_event {j : ℕ} {e : Event K} (he : h[j]? = some e) (i : ℕ) :
    Path h i j ↔ ∃ p ∈ e.preds, i = p ∨ Path h i p := by
  have hedge : ∀ p, Edge h p j ↔ p ∈ e.preds := by
    intro p
    constructor
    · rintro ⟨e', he', hp⟩
      obtain rfl := Option.some.inj (he.symm.trans he')
      exact hp
    · exact fun hp => ⟨e, he, hp⟩
  constructor
  · intro hpath
    cases hpath with
    | single hlast => exact ⟨i, (hedge i).mp hlast, Or.inl rfl⟩
    | @tail p _ hfirst hlast => exact ⟨p, (hedge p).mp hlast, Or.inr hfirst⟩
  · rintro ⟨p, hp, rfl | hfirst⟩
    · exact .single ((hedge i).mpr hp)
    · exact .tail hfirst ((hedge p).mpr hp)

theorem row_insert {row src : List Bool} (hlength : src.length = row.length) {p : ℕ}
    (hp : p < row.length) (i : ℕ) :
    (List.zipWith (· || ·) (row.set p true) src)[i]? = some true ↔
      row[i]? = some true ∨ i = p ∨ src[i]? = some true := by
  rw [List.getElem?_zipWith, List.getElem?_set]
  rcases Nat.lt_or_ge i row.length with hi | hi
  · have hsrc : i < src.length := by rwa [hlength]
    rw [List.getElem?_eq_getElem hsrc, List.getElem?_eq_getElem hi]
    by_cases heq : p = i
    · subst heq
      simp [hp]
    · simp [heq, Ne.symm heq]
  · have hsrc : src.length ≤ i := by rwa [hlength]
    rw [List.getElem?_eq_none hi, List.getElem?_eq_none hsrc]
    have hne : p ≠ i := by omega
    simp [hne, Ne.symm hne]

theorem reachRow_eq {earlier : List (List Bool)} {preds : List ℕ} {row : List Bool}
    (hpreds : ∀ p ∈ preds, p < row.length ∧ ∃ src, earlier[p]? = some src ∧ RowOf h row.length p src) :
    ∃ row', World.reachRow earlier preds row = .ok row' ∧ row'.length = row.length ∧
      ∀ i, row'[i]? = some true ↔ row[i]? = some true ∨ ∃ p ∈ preds, i = p ∨ Path h i p := by
  induction preds generalizing row with
  | nil => exact ⟨row, rfl, rfl, fun i => by simp⟩
  | cons p preds ih =>
    obtain ⟨hp, src, hsrc, hrow⟩ := hpreds p List.mem_cons_self
    have hlength : (List.zipWith (· || ·) (row.set p true) src).length = row.length := by
      rw [List.length_zipWith, List.length_set, hrow.length, Nat.min_self]
    have hlater : ∀ q ∈ preds, q < (List.zipWith (· || ·) (row.set p true) src).length ∧
        ∃ src', earlier[q]? = some src' ∧
          RowOf h (List.zipWith (· || ·) (row.set p true) src).length q src' := by
      rw [hlength]
      exact fun q hq => hpreds q (List.mem_cons_of_mem _ hq)
    obtain ⟨row', hrest, hlength', hreached⟩ := ih hlater
    refine ⟨row', ?_, hlength'.trans hlength, fun i => ?_⟩
    · rw [World.reachRow, index_eq (List.getElem?_eq_getElem hp), ok_bind, index_eq hsrc, ok_bind]
      exact hrest
    · rw [hreached, row_insert hrow.length hp, hrow.reached, List.exists_mem_cons_iff, or_assoc]

theorem rows_concat {rows : List (List Bool)} (hrows : ∀ j row, rows[j]? = some row → RowOf h n j row)
    {row : List Bool} (hrow : RowOf h n rows.length row) :
    ∀ j row', (rows ++ [row])[j]? = some row' → RowOf h n j row' := by
  intro j row' hj
  rcases Nat.lt_trichotomy j rows.length with hlt | rfl | hgt
  · rw [List.getElem?_append_left hlt] at hj
    exact hrows j row' hj
  · rw [List.getElem?_concat_length] at hj
    rwa [← Option.some.inj hj]
  · rw [List.getElem?_eq_none (by rw [List.length_append, List.length_singleton]; omega)] at hj
    cases hj

theorem reachRows_eq (hearlier : ∀ (j : ℕ) (e : Event K), h[j]? = some e → ∀ i ∈ e.preds, i < j)
    (hn : h.length = n) {nodes : List (Event K)} {rest : List (List ℕ)}
    (hrest : List.Forall₂ (fun (e : Event K) preds => ∀ i, i ∈ preds ↔ i ∈ e.preds) nodes rest) :
    ∀ rows : List (List Bool), h.drop rows.length = nodes → rows.length ≤ n →
      (∀ j row, rows[j]? = some row → RowOf h n j row) →
      ∃ reach, World.reachRows n rest rows = .ok reach ∧ reach.length = n ∧
        ∀ j row, reach[j]? = some row → RowOf h n j row := by
  induction hrest with
  | nil =>
    intro rows hh hlength hrows
    have hle := List.drop_eq_nil_iff.mp hh
    exact ⟨rows, rfl, by omega, hrows⟩
  | @cons e preds nodes rest hpreds hrest ih =>
    intro rows hh hlength hrows
    have he : h[rows.length]? = some e := by
      rw [← Nat.add_zero rows.length, ← List.getElem?_drop, hh]
      rfl
    have hlt : rows.length < h.length := (List.getElem?_eq_some_iff.mp he).1
    have hfalse : (List.replicate n false).length = n := List.length_replicate
    have hearly : ∀ p ∈ preds, p < (List.replicate n false).length ∧
        ∃ src, rows[p]? = some src ∧ RowOf h (List.replicate n false).length p src := by
      rw [hfalse]
      intro p hp
      have hlt' := hearlier rows.length e he p ((hpreds p).mp hp)
      obtain ⟨src, hsrc⟩ := lookup hlt'
      exact ⟨by omega, src, hsrc, hrows p src hsrc⟩
    obtain ⟨row, hrow, hrowLength, hreached⟩ := reachRow_eq hearly
    have hnew : RowOf h n rows.length row := by
      refine ⟨hrowLength.trans hfalse, fun i => ?_⟩
      have hnone : ¬(List.replicate n false)[i]? = some true := by
        rw [List.getElem?_replicate]
        split <;> simp
      rw [hreached, or_iff_right hnone, path_iff_of_event he]
      simp only [hpreds]
    have hsnoc : (rows ++ [row]).length = rows.length + 1 := List.length_append
    have hdrop : h.drop (rows ++ [row]).length = nodes := by
      rw [hsnoc, ← List.drop_drop, hh]
      rfl
    obtain ⟨reach, hall, hreach⟩ := ih (rows ++ [row]) hdrop (by omega) (rows_concat hrows hnew)
    refine ⟨reach, ?_, hreach⟩
    rw [World.reachRows, hrow, ok_bind]
    exact hall

end Matrix

theorem forM_ok {α : Type} {xs : List α} {f : α → Check Unit} (h : ∀ x ∈ xs, f x = .ok ()) :
    xs.forM f = .ok () := by
  induction xs with
  | nil => rfl
  | cons x xs ih =>
    change (f x >>= fun _ => xs.forM f) = .ok ()
    rw [h x List.mem_cons_self, ok_bind]
    exact ih fun y hy => h y (List.mem_cons_of_mem _ hy)

section Agreement
variable {tr : List SystemEntry} {w : World}

theorem checkPair_ok {g : CausalLedger} {s : System} (hfollows : CausalLedger.Follows g s) (hpaced : CausalLedger.Paced g s)
    {reach : List (List Bool)} (hlength : reach.length = g.events.length)
    (hreach : ∀ j row, reach[j]? = some row → RowOf g.events g.events.length j row) {i j : ℕ}
    {a b : EventNode} (ha : g.nodes[i]? = some a) (hb : g.nodes[j]? = some b) :
    World.checkPair reach i j a.stamp b.stamp = .ok () := by
  have hevents : g.events.length = g.nodes.length := List.length_map ..
  have hi : i < g.nodes.length := (List.getElem?_eq_some_iff.mp ha).1
  have hj : j < g.nodes.length := (List.getElem?_eq_some_iff.mp hb).1
  rw [World.checkPair]
  split
  · rfl
  · next hij =>
    obtain ⟨row, hrow⟩ := lookup (by omega : j < reach.length)
    obtain ⟨hrowLength, hreached⟩ := hreach j row hrow
    obtain ⟨truth, htruth⟩ := lookup (by omega : i < row.length)
    have hpath : truth = true ↔ g.Path i j := by
      have hentry := hreached i
      rwa [htruth, Option.some.injEq] at hentry
    have hagree : a.stamp.happenedBefore b.stamp = truth := by
      rw [Bool.eq_iff_iff, hpath]
      exact hfollows.happenedBefore_iff hij ha hb
    rw [index_eq hrow, ok_bind, index_eq htruth, ok_bind, hagree,
      ensure_true _ (beq_self_eq_true truth), ok_bind]
    split
    · next hyes =>
      apply ensure_true
      exact decide_eq_true (hpaced.lamport_lt_of_path ha hb (hpath.mp hyes))
    · rfl

/-- At the end of a run without a counter that wraps the check of causality passes. -/
theorem Mirrors.checkCausality_ok (h : Mirrors tr w) (hevents : w.stamps.length < 2 ^ 64) :
    w.checkCausality = .ok () := by
  have hlength : w.stamps.length = (causality tr).events.length := by
    rw [h.chronicled.length]
    exact (List.length_map ..).symm
  have hspawns : spawnCount tr ≤ 2 ^ 64 := by
    have hprocs := h.procs
    rw [maxProcesses] at hprocs
    rw [h.spawns]
    omega
  have hfew : (causality tr).nodes.length < 2 ^ 64 := by rwa [← h.chronicled.length]
  obtain ⟨-, hfollows, hpaced⟩ :=
    CausalLedger.Paced.kept.run h.run System.fresh_new hspawns hfew
  have hpreds : List.Forall₂ (fun (e : Event ProcessId) preds => ∀ i, i ∈ preds ↔ i ∈ e.preds)
      (causality tr).events w.preds := by
    rw [CausalLedger.events, List.forall₂_map_left_iff]
    exact h.chronicled.preds
  obtain ⟨reach, hreach, hreachLength, hrows⟩ := reachRows_eq hfollows.timed.earlier hlength.symm
    hpreds [] rfl (Nat.zero_le _) fun j row hj => by cases hj
  rw [hlength] at hreachLength hrows
  rw [World.checkCausality, hreach, ok_bind]
  apply forM_ok
  intro x hx
  apply forM_ok
  intro y hy
  have hnode : ∀ z ∈ w.stamps.zipIdx, ∃ a, (causality tr).nodes[z.2]? = some a ∧ a.stamp = z.1 := by
    intro z hz
    rw [List.mem_zipIdx_iff_getElem?, h.chronicled.stamps, List.getElem?_map,
      Option.map_eq_some_iff] at hz
    exact hz
  obtain ⟨a, ha, hstampA⟩ := hnode x hx
  obtain ⟨b, hb, hstampB⟩ := hnode y hy
  rw [← hstampA, ← hstampB]
  exact checkPair_ok hfollows hpaced hreachLength hrows ha hb

end Agreement
end Muaddib.Chaos
