import Mathlib

/-! # Event graphs and the vector times that characterise them

Events are numbered in the order they are recorded. Each names its direct predecessors, among them
the previous event of its own process, and carries a vector time: the pointwise maximum over its
predecessors, one more at its own process. Such times order events exactly as the graph does. -/
namespace Muaddib.CausalGraphs

structure Event (K : Type*) where
  process : K
  preds : List ℕ
  time : K → ℕ

variable {K : Type*} {h : List (Event K)} {i j k : ℕ} {a b c e : Event K}

def Edge (h : List (Event K)) (i j : ℕ) : Prop := ∃ e, h[j]? = some e ∧ i ∈ e.preds

/-- Some chain of edges leads from `i` to `j`. -/
def Path (h : List (Event K)) : ℕ → ℕ → Prop := Relation.TransGen (Edge h)

/-- The counter an event holds for `q`, zero for an event that does not exist. -/
def timeAt (h : List (Event K)) (i : ℕ) (q : K) : ℕ := h[i]?.elim 0 fun e => e.time q

/-- What a list of predecessors knows about `q`. -/
def past (h : List (Event K)) (preds : List ℕ) (q : K) : ℕ :=
  preds.foldr (fun i n => max (timeAt h i q) n) 0

theorem timeAt_of_getElem? (hi : h[i]? = some a) (q : K) : timeAt h i q = a.time q := by
  rw [timeAt, hi, Option.elim_some]

theorem timeAt_append (h' : List (Event K)) (hi : i < h.length) (q : K) :
    timeAt (h ++ h') i q = timeAt h i q := by
  rw [timeAt, List.getElem?_append_left hi, timeAt]

theorem past_append (h' : List (Event K)) {preds : List ℕ} (hp : ∀ i ∈ preds, i < h.length) (q : K) :
    past (h ++ h') preds q = past h preds q := by
  induction preds with
  | nil => rfl
  | cons i preds ih =>
    have hrest := ih fun j hj => hp j (List.mem_cons_of_mem i hj)
    simp only [past, List.foldr_cons] at hrest ⊢
    rw [hrest, timeAt_append h' (hp i List.mem_cons_self)]

theorem past_preds_append (h : List (Event K)) (preds preds' : List ℕ) (q : K) :
    past h (preds ++ preds') q = max (past h preds q) (past h preds' q) := by
  induction preds with
  | nil => exact (Nat.zero_max _).symm
  | cons i preds ih =>
    simp only [past, List.foldr_cons, List.cons_append] at ih ⊢
    rw [ih, Nat.max_assoc]

theorem le_past {preds : List ℕ} (hi : i ∈ preds) (q : K) : timeAt h i q ≤ past h preds q := by
  induction preds with
  | nil => cases hi
  | cons j preds ih =>
    rw [past, List.foldr_cons]
    rcases List.mem_cons.mp hi with rfl | hi
    · exact Nat.le_max_left ..
    · exact (ih hi).trans (Nat.le_max_right ..)

theorem exists_past {preds : List ℕ} {q : K} (hpos : 0 < past h preds q) :
    ∃ i ∈ preds, timeAt h i q = past h preds q := by
  induction preds with
  | nil => cases hpos
  | cons j preds ih =>
    rw [past, List.foldr_cons] at hpos ⊢
    rcases Nat.le_total (past h preds q) (timeAt h j q) with hle | hle
    · exact ⟨j, List.mem_cons_self, (Nat.max_eq_left hle).symm⟩
    · have hmax : max (timeAt h j q) (past h preds q) = past h preds q := Nat.max_eq_right hle
      have hrest : 0 < past h preds q := hmax ▸ hpos
      obtain ⟨i, hi, heq⟩ := ih hrest
      exact ⟨i, List.mem_cons_of_mem j hi, heq.trans hmax.symm⟩

def Last (h : List (Event K)) (last : K → Option ℕ) : Prop :=
  ∀ p, match last p with
    | none => ∀ e ∈ h, e.process ≠ p
    | some i => (∃ e, h[i]? = some e ∧ e.process = p) ∧
      ∀ j e, h[j]? = some e → e.process = p → j ≤ i

theorem Last.nil : Last ([] : List (Event K)) fun _ => none := by
  intro p e he
  cases he

theorem Last.lt {last : K → Option ℕ} (hl : Last h last) {p : K} (hp : last p = some i) :
    i < h.length := by
  have hlast := hl p
  rw [hp] at hlast
  obtain ⟨⟨e, he, -⟩, -⟩ := hlast
  exact (List.getElem?_eq_some_iff.mp he).1

section Histories
variable [DecidableEq K]

/-- Every event looks back, at least to the previous event of its process, and its time is computed
from what it looks back to. -/
structure Timed (h : List (Event K)) : Prop where
  earlier : ∀ (j : ℕ) (e : Event K), h[j]? = some e → ∀ i ∈ e.preds, i < j
  chain : ∀ (i j : ℕ) (a b : Event K), i < j → h[i]? = some a → h[j]? = some b →
    a.process = b.process → ∃ k c, i ≤ k ∧ k ∈ b.preds ∧ h[k]? = some c ∧ c.process = b.process
  time : ∀ (j : ℕ) (e : Event K), h[j]? = some e → ∀ q,
    e.time q = past h e.preds q + if e.process = q then 1 else 0

theorem Last.snoc {last : K → Option ℕ} (hl : Last h last) (e : Event K) :
    Last (h ++ [e]) (Function.update last e.process (some h.length)) := by
  intro p
  by_cases hp : p = e.process
  · subst hp
    rw [Function.update_self]
    refine ⟨⟨e, by simp, rfl⟩, fun j c hc _ => ?_⟩
    have hj := (List.getElem?_eq_some_iff.mp hc).1
    rw [List.length_append, List.length_singleton] at hj
    omega
  · rw [Function.update_of_ne hp]
    have hold := hl p
    cases hlast : last p with
    | none =>
      rw [hlast] at hold
      intro c hc
      rcases List.mem_append.mp hc with hc | hc
      · exact hold c hc
      · rw [List.mem_singleton.mp hc]
        exact Ne.symm hp
    | some i =>
      rw [hlast] at hold
      obtain ⟨⟨c, hc, hcp⟩, hmax⟩ := hold
      have hi := (List.getElem?_eq_some_iff.mp hc).1
      refine ⟨⟨c, by rw [List.getElem?_append_left hi]; exact hc, hcp⟩, fun j d hd hdp => ?_⟩
      rcases Nat.lt_or_ge j h.length with hj | hj
      · rw [List.getElem?_append_left hj] at hd
        exact hmax j d hd hdp
      · rw [List.getElem?_append_right hj, List.getElem?_singleton] at hd
        split at hd
        · obtain rfl := Option.some.inj hd
          exact absurd hdp.symm hp
        · cases hd

namespace Timed

theorem nil : Timed ([] : List (Event K)) := ⟨by simp, by simp, by simp⟩

/-- Recording one more event: it looks back to the last event of its process. -/
theorem snoc (ht : Timed h) {last : K → Option ℕ} (hl : Last h last) (e : Event K)
    (hpreds : ∀ i ∈ e.preds, i < h.length) (hlast : ∀ i, last e.process = some i → i ∈ e.preds)
    (htime : ∀ q, e.time q = past h e.preds q + if e.process = q then 1 else 0) :
    Timed (h ++ [e]) := by
  have hget : ∀ (j : ℕ) (c : Event K), (h ++ [e])[j]? = some c → h[j]? = some c ∨ j = h.length ∧ c = e := by
    intro j c hc
    rcases Nat.lt_or_ge j h.length with hj | hj
    · rw [List.getElem?_append_left hj] at hc
      exact Or.inl hc
    · rw [List.getElem?_append_right hj, List.getElem?_singleton] at hc
      split at hc
      · exact Or.inr ⟨by omega, (Option.some.inj hc).symm⟩
      · cases hc
  have hold : ∀ (j : ℕ) (c : Event K), h[j]? = some c → (h ++ [e])[j]? = some c := by
    intro j c hc
    rw [List.getElem?_append_left (List.getElem?_eq_some_iff.mp hc).1]
    exact hc
  refine ⟨fun j c hc i hi => ?_, fun i j a b hij ha hb hab => ?_, fun j c hc q => ?_⟩
  · rcases hget j c hc with hc | ⟨rfl, rfl⟩
    · exact ht.earlier j c hc i hi
    · exact hpreds i hi
  · rcases hget j b hb with hb | ⟨rfl, rfl⟩
    · have hj := (List.getElem?_eq_some_iff.mp hb).1
      rw [List.getElem?_append_left (hij.trans hj)] at ha
      obtain ⟨k, c, hik, hk, hc, hcb⟩ := ht.chain i j a b hij ha hb hab
      exact ⟨k, c, hik, hk, hold k c hc, hcb⟩
    · rw [List.getElem?_append_left hij] at ha
      have hb := hl b.process
      cases hlp : last b.process with
      | none =>
        rw [hlp] at hb
        exact absurd hab (hb a (List.mem_of_getElem? ha))
      | some k =>
        rw [hlp] at hb
        obtain ⟨⟨c, hc, hcb⟩, hmax⟩ := hb
        exact ⟨k, c, hmax i a ha hab, hlast k hlp, hold k c hc, hcb⟩
  · rcases hget j c hc with hc | ⟨rfl, rfl⟩
    · have hj := (List.getElem?_eq_some_iff.mp hc).1
      rw [past_append [e] fun i hi => (ht.earlier j c hc i hi).trans hj]
      exact ht.time j c hc q
    · rw [past_append [c] hpreds]
      exact htime q

variable (ht : Timed h)
include ht

theorem edge_lt (hij : Edge h i j) : i < j := by
  obtain ⟨e, he, hi⟩ := hij
  exact ht.earlier j e he i hi

theorem path_lt (hij : Path h i j) : i < j := by
  induction hij with
  | single hij => exact ht.edge_lt hij
  | tail _ hjk ih => exact ih.trans (ht.edge_lt hjk)

theorem edge_le (hij : Edge h i j) (q : K) : timeAt h i q ≤ timeAt h j q := by
  obtain ⟨e, he, hi⟩ := hij
  rw [timeAt_of_getElem? he, ht.time j e he]
  exact (le_past hi q).trans (Nat.le_add_right ..)

theorem path_le (hij : Path h i j) (q : K) : timeAt h i q ≤ timeAt h j q := by
  induction hij with
  | single hij => exact ht.edge_le hij q
  | tail _ hjk ih => exact ih.trans (ht.edge_le hjk q)

theorem own_pos (ha : h[i]? = some a) : 0 < a.time a.process := by
  rw [ht.time i a ha, if_pos rfl]
  exact Nat.succ_pos _

theorem path_of_process (hij : i < j) (ha : h[i]? = some a) (hb : h[j]? = some b)
    (hab : a.process = b.process) : Path h i j := by
  induction j using Nat.strong_induction_on generalizing b with
  | h j ih =>
    obtain ⟨k, c, hik, hk, hc, hcb⟩ := ht.chain i j a b hij ha hb hab
    have hedge : Edge h k j := ⟨b, hb, hk⟩
    rcases Nat.eq_or_lt_of_le hik with rfl | hik
    · exact .single hedge
    · exact .tail (ih k (ht.edge_lt hedge) hik hc (hab.trans hcb.symm)) hedge

theorem own_lt (hij : i < j) (ha : h[i]? = some a) (hb : h[j]? = some b)
    (hab : a.process = b.process) : a.time a.process < b.time b.process := by
  obtain ⟨k, c, hik, hk, hc, hcb⟩ := ht.chain i j a b hij ha hb hab
  have hac : a.time a.process ≤ c.time a.process := by
    rcases Nat.eq_or_lt_of_le hik with rfl | hik
    · rw [ha, Option.some.injEq] at hc
      rw [hc]
    · have hpath := ht.path_of_process hik ha hc (hab.trans hcb.symm)
      have hle := ht.path_le hpath a.process
      rwa [timeAt_of_getElem? ha, timeAt_of_getElem? hc] at hle
  have hcj := le_past hk b.process (h := h)
  rw [timeAt_of_getElem? hc, ← hab] at hcj
  rw [ht.time j b hb, if_pos rfl, ← hab]
  omega

/-- What an event knows about a process is the own counter of one event of that process, itself or
one in its past. -/
theorem known (hb : h[j]? = some b) {q : K} (hpos : 0 < b.time q) :
    ∃ i a, h[i]? = some a ∧ a.process = q ∧ b.time q = a.time q ∧ (i = j ∨ Path h i j) := by
  induction j using Nat.strong_induction_on generalizing b with
  | h j ih =>
    by_cases hq : b.process = q
    · exact ⟨j, b, hb, hq, rfl, Or.inl rfl⟩
    · have htime := ht.time j b hb q
      rw [if_neg hq, Nat.add_zero] at htime
      rw [htime] at hpos
      obtain ⟨k, hk, hmax⟩ := exists_past hpos
      have hedge : Edge h k j := ⟨b, hb, hk⟩
      cases hc : h[k]? with
      | none =>
        rw [timeAt, hc, Option.elim_none] at hmax
        omega
      | some c =>
        rw [timeAt_of_getElem? hc] at hmax
        obtain ⟨i, a, ha, hap, heq, hik⟩ := ih k (ht.edge_lt hedge) hc (hmax ▸ hpos)
        refine ⟨i, a, ha, hap, by omega, Or.inr ?_⟩
        rcases hik with rfl | hik
        · exact .single hedge
        · exact hik.tail hedge

/-- One event's time is below another's exactly when it is the same event or in its past. -/
theorem le_iff_path (ha : h[i]? = some a) (hb : h[j]? = some b) :
    (∀ q, a.time q ≤ b.time q) ↔ i = j ∨ Path h i j := by
  constructor
  · intro hle
    have hpos := (ht.own_pos ha).trans_le (hle a.process)
    obtain ⟨k, c, hc, hcp, heq, hkj⟩ := ht.known hb hpos
    have hik : i ≤ k := by
      by_contra hki
      have hlt := ht.own_lt (Nat.lt_of_not_le hki) hc ha hcp
      rw [hcp] at hlt
      have hown := hle a.process
      omega
    rcases Nat.eq_or_lt_of_le hik with rfl | hik
    · exact hkj
    · have hpath := ht.path_of_process hik ha hc hcp.symm
      rcases hkj with rfl | hkj
      · exact Or.inr hpath
      · exact Or.inr (hpath.trans hkj)
  · rintro (rfl | hij) q
    · rw [ha, Option.some.injEq] at hb
      rw [hb]
    · have hle := ht.path_le hij q
      rwa [timeAt_of_getElem? ha, timeAt_of_getElem? hb] at hle

/-- An event's counter for a process is at most the number of that process's events so far. -/
theorem time_le_count (hb : h[j]? = some b) (q : K) :
    b.time q ≤ (h.take (j + 1)).countP fun e => e.process = q := by
  induction j using Nat.strong_induction_on generalizing b q with
  | h j ih =>
    have hpast : past h b.preds q ≤ (h.take j).countP fun e => e.process = q := by
      rcases Nat.eq_zero_or_pos (past h b.preds q) with hzero | hpos
      · rw [hzero]
        exact Nat.zero_le _
      · obtain ⟨k, hk, hmax⟩ := exists_past hpos
        have hkj := ht.edge_lt ⟨b, hb, hk⟩
        cases hc : h[k]? with
        | none =>
          rw [timeAt, hc, Option.elim_none] at hmax
          omega
        | some c =>
          rw [timeAt_of_getElem? hc] at hmax
          rw [← hmax]
          have hsub : (h.take (k + 1)).Sublist (h.take j) := by
            rw [← Nat.min_eq_left (show k + 1 ≤ j from hkj), ← List.take_take]
            exact List.take_sublist ..
          exact (ih k hkj hc q).trans hsub.countP_le
    rw [ht.time j b hb, List.take_add_one, hb, List.countP_append, Option.toList_some,
      List.countP_singleton]
    simp only [decide_eq_true_eq]
    exact Nat.add_le_add_right hpast _

/-- What a list of predecessors knows is at most the number of events. -/
theorem past_le_count (preds : List ℕ) (q : K) :
    past h preds q ≤ h.countP fun e => e.process = q := by
  rcases Nat.eq_zero_or_pos (past h preds q) with hzero | hpos
  · rw [hzero]
    exact Nat.zero_le _
  · obtain ⟨k, -, hmax⟩ := exists_past hpos
    cases hc : h[k]? with
    | none =>
      rw [timeAt, hc, Option.elim_none] at hmax
      omega
    | some c =>
      rw [timeAt_of_getElem? hc] at hmax
      rw [← hmax]
      exact (ht.time_le_count hc q).trans (List.take_sublist ..).countP_le

end Timed
end Histories
end Muaddib.CausalGraphs
