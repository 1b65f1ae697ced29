import Muaddib.FiniteMaps
import Muaddib.MachineCounters

/-! # Logical clocks: Lamport scalars, sparse vectors, and the stamps of events -/
namespace Muaddib
open Std (ExtTreeMap TransOrd LawfulEqOrd OrientedCmp)

structure LamportClock where
  time : UInt64
  deriving DecidableEq, Repr

namespace LamportClock

def new : LamportClock := ⟨0⟩

def tick (c : LamportClock) : LamportClock := ⟨c.time + 1⟩

/-- A receive event for a message stamped `remote`: past both clocks. -/
def observe (c : LamportClock) (remote : UInt64) : LamportClock := ⟨max c.time remote + 1⟩

end LamportClock

inductive Causality where
  | before
  | after
  | equal
  | concurrent
  deriving DecidableEq, Repr

/-- A sparse vector of counters; an absent process has counter 0. -/
structure VectorClock (K : Type) [Ord K] where
  entries : ExtTreeMap K UInt64

namespace VectorClock
variable {K : Type} [Ord K] [TransOrd K] [LawfulEqOrd K]

instance : DecidableEq (VectorClock K) := fun a b =>
  decidable_of_iff (a.entries = b.entries) (by cases a; cases b; simp)

omit [TransOrd K] [LawfulEqOrd K] in
def new : VectorClock K := ⟨∅⟩

def get (v : VectorClock K) (process : K) : UInt64 := v.entries[process]?.getD 0

def tick (v : VectorClock K) (process : K) : VectorClock K :=
  ⟨v.entries.insert process (v.get process + 1)⟩

/-- Merges one entry of the other clock, as one turn of the source's loop does. -/
def mergeEntry (entries : ExtTreeMap K UInt64) (process : K) (count : UInt64) :
    ExtTreeMap K UInt64 :=
  entries.insert process (max (entries[process]?.getD 0) count)

def merge (v other : VectorClock K) : VectorClock K :=
  ⟨other.entries.foldl mergeEntry v.entries⟩

/-- The two flags of `compare` after one more key. -/
def compareKey (v other : VectorClock K) (flags : Bool × Bool) (process : K) : Bool × Bool :=
  match compare (v.get process) (other.get process) with
  | .lt => (true, flags.2)
  | .gt => (flags.1, true)
  | .eq => flags

protected def compare (v other : VectorClock K) : Causality :=
  match (v.entries.keys ++ other.entries.keys).foldl (compareKey v other) (false, false) with
  | (false, false) => .equal
  | (true, false) => .before
  | (false, true) => .after
  | (true, true) => .concurrent

def happenedBefore (v other : VectorClock K) : Bool := v.compare other == .before

def concurrentWith (v other : VectorClock K) : Bool := v.compare other == .concurrent

/-- The source's `PartialEq`: equal counters at every process. -/
protected def eq (v other : VectorClock K) : Bool := v.compare other == .equal

omit [LawfulEqOrd K] in
@[simp] theorem get_new (q : K) : (new : VectorClock K).get q = 0 := by
  simp [new, get]

theorem get_tick [DecidableEq K] (v : VectorClock K) (p q : K) :
    (v.tick p).get q = if p = q then v.get q + 1 else v.get q := by
  simp only [tick, get, FiniteMaps.getElem?_insert]
  split
  · next h => simp [h]
  · rfl

private theorem foldl_mergeEntry_of_notMem [DecidableEq K] (l : List (K × UInt64)) (q : K)
    (hq : ∀ x ∈ l, x.1 ≠ q) (m : ExtTreeMap K UInt64) :
    (l.foldl (fun (m : ExtTreeMap K UInt64) x => mergeEntry m x.1 x.2) m)[q]? = m[q]? := by
  induction l generalizing m with
  | nil => rfl
  | cons x l ih =>
    rw [List.foldl_cons, ih (fun y hy => hq y (List.mem_cons_of_mem x hy)), mergeEntry,
      FiniteMaps.getElem?_insert, if_neg (hq x List.mem_cons_self)]

private theorem foldl_mergeEntry_of_mem [DecidableEq K] (l : List (K × UInt64)) (q : K)
    (n : UInt64) (hl : (l.map Prod.fst).Nodup) (hq : (q, n) ∈ l) (m : ExtTreeMap K UInt64) :
    (l.foldl (fun (m : ExtTreeMap K UInt64) x => mergeEntry m x.1 x.2) m)[q]? = some (max (m[q]?.getD 0) n) := by
  induction l generalizing m with
  | nil => simp at hq
  | cons x l ih =>
    rw [List.map_cons, List.nodup_cons] at hl
    rw [List.foldl_cons]
    rcases List.mem_cons.mp hq with rfl | hq
    · rw [foldl_mergeEntry_of_notMem l q (fun y hy he => hl.1 (List.mem_map.mpr ⟨y, hy, he⟩))]
      simp [mergeEntry]
    · have hx : x.1 ≠ q := fun he => hl.1 (List.mem_map.mpr ⟨_, hq, he.symm⟩)
      rw [ih hl.2 hq, mergeEntry, FiniteMaps.getElem?_insert, if_neg hx]

/-- Merging takes the pointwise maximum, whatever zero entries either map stores. -/
theorem get_merge (v other : VectorClock K) (q : K) :
    (v.merge other).get q = max (v.get q) (other.get q) := by
  classical
  have hd : (other.entries.toList.map Prod.fst).Nodup := by
    rw [ExtTreeMap.map_fst_toList_eq_keys]
    exact ExtTreeMap.nodup_keys
  simp only [merge, get, ExtTreeMap.foldl_eq_foldl_toList]
  cases h : other.entries[q]? with
  | none =>
    rw [foldl_mergeEntry_of_notMem _ q]
    · simp
    · rintro ⟨p, n⟩ hp rfl
      rw [ExtTreeMap.mem_toList_iff_getElem?_eq_some.mp hp] at h
      cases h
  | some n =>
    rw [foldl_mergeEntry_of_mem _ q n hd (ExtTreeMap.mem_toList_iff_getElem?_eq_some.mpr h)]
    rfl

omit [LawfulEqOrd K] in
private theorem foldl_compareKey (v w : VectorClock K) (l : List K) (flags : Bool × Bool) :
    l.foldl (compareKey v w) flags =
      (flags.1 || l.any (fun p => v.get p < w.get p), flags.2 || l.any (fun p => w.get p < v.get p)) := by
  induction l generalizing flags with
  | nil => simp
  | cons p l ih =>
    rw [List.foldl_cons, ih]
    rcases Nat.lt_trichotomy (v.get p).toNat (w.get p).toNat with h | h | h
    · have hc : compare (v.get p) (w.get p) = .lt :=
        compareOfLessAndEq_eq_lt.mpr (UInt64.lt_iff_toNat_lt.mpr h)
      simp [compareKey, hc, UInt64.lt_iff_toNat_lt, h, Nat.lt_asymm h]
    · have he : v.get p = w.get p := UInt64.toNat_inj.mp h
      simp [compareKey, he]
    · have hc : compare (v.get p) (w.get p) = .gt := by
        rw [OrientedCmp.gt_iff_lt]
        exact compareOfLessAndEq_eq_lt.mpr (UInt64.lt_iff_toNat_lt.mpr h)
      simp [compareKey, hc, UInt64.lt_iff_toNat_lt, h, Nat.lt_asymm h]

private theorem any_keys_lt (a b : VectorClock K) (l : List K) (hl : ∀ p ∈ b.entries.keys, p ∈ l) :
    l.any (fun p => a.get p < b.get p) = true ↔ ∃ p, a.get p < b.get p := by
  simp only [List.any_eq_true, decide_eq_true_eq]
  constructor
  · rintro ⟨p, _, h⟩
    exact ⟨p, h⟩
  · rintro ⟨p, h⟩
    refine ⟨p, hl p ?_, h⟩
    rw [ExtTreeMap.mem_keys]
    by_contra hn
    rw [UInt64.lt_iff_toNat_lt] at h
    simp [get, ExtTreeMap.getElem?_eq_none hn] at h

/-- The two flags after the loop say on which side some counter is smaller. -/
private theorem compare_flags (a b : VectorClock K) :
    ∃ less greater, (a.entries.keys ++ b.entries.keys).foldl (compareKey a b) (false, false) =
      (less, greater) ∧ (less = true ↔ ∃ p, a.get p < b.get p) ∧
      (greater = true ↔ ∃ p, b.get p < a.get p) := by
  refine ⟨_, _, foldl_compareKey a b _ _, ?_, ?_⟩
  · rw [Bool.false_or]
    exact any_keys_lt a b _ fun p hp => List.mem_append_right _ hp
  · rw [Bool.false_or]
    exact any_keys_lt b a _ fun p hp => List.mem_append_left _ hp

omit [LawfulEqOrd K] in
private theorem exists_lt_iff (a b : VectorClock K) :
    (∃ p, a.get p < b.get p) ↔ ¬∀ p, b.get p ≤ a.get p := by
  simp only [not_forall, UInt64.le_iff_toNat_le, UInt64.lt_iff_toNat_lt, not_le]

theorem compare_eq_before_iff (a b : VectorClock K) :
    a.compare b = .before ↔ (∀ p, a.get p ≤ b.get p) ∧ ¬∀ p, b.get p ≤ a.get p := by
  obtain ⟨less, greater, hf, hl, hg⟩ := compare_flags a b
  rw [exists_lt_iff] at hl hg
  rw [← hl, ← not_not (a := ∀ p, a.get p ≤ b.get p), ← hg]
  cases less <;> cases greater <;> simp [VectorClock.compare, hf]

theorem compare_eq_after_iff (a b : VectorClock K) :
    a.compare b = .after ↔ (∀ p, b.get p ≤ a.get p) ∧ ¬∀ p, a.get p ≤ b.get p := by
  obtain ⟨less, greater, hf, hl, hg⟩ := compare_flags a b
  rw [exists_lt_iff] at hl hg
  rw [← hg, ← not_not (a := ∀ p, b.get p ≤ a.get p), ← hl]
  cases less <;> cases greater <;> simp [VectorClock.compare, hf]

theorem compare_eq_equal_iff (a b : VectorClock K) :
    a.compare b = .equal ↔ (∀ p, a.get p ≤ b.get p) ∧ ∀ p, b.get p ≤ a.get p := by
  obtain ⟨less, greater, hf, hl, hg⟩ := compare_flags a b
  rw [exists_lt_iff] at hl hg
  rw [← not_not (a := ∀ p, a.get p ≤ b.get p), ← hg, ← not_not (a := ∀ p, b.get p ≤ a.get p), ← hl]
  cases less <;> cases greater <;> simp [VectorClock.compare, hf]

theorem compare_eq_concurrent_iff (a b : VectorClock K) :
    a.compare b = .concurrent ↔ (¬∀ p, a.get p ≤ b.get p) ∧ ¬∀ p, b.get p ≤ a.get p := by
  obtain ⟨less, greater, hf, hl, hg⟩ := compare_flags a b
  rw [exists_lt_iff] at hl hg
  rw [← hl, ← hg]
  cases less <;> cases greater <;> simp [VectorClock.compare, hf]

theorem happenedBefore_iff (a b : VectorClock K) :
    a.happenedBefore b = true ↔ (∀ p, a.get p ≤ b.get p) ∧ ¬∀ p, b.get p ≤ a.get p := by
  rw [happenedBefore, beq_iff_eq, compare_eq_before_iff]

theorem eq_iff (a b : VectorClock K) : a.eq b = true ↔ ∀ p, a.get p = b.get p := by
  rw [VectorClock.eq, beq_iff_eq, compare_eq_equal_iff]
  simp only [← forall_and, UInt64.le_iff_toNat_le, ← UInt64.toNat_inj]
  exact forall_congr' fun p => ⟨fun h => Nat.le_antisymm h.1 h.2, fun h => ⟨h.le, h.ge⟩⟩

/-- No counter is above `n`. -/
def Below (n : ℕ) (v : VectorClock K) : Prop := ∀ q, (v.get q).toNat ≤ n

/-- No counter is smaller in `w`. -/
def Leq (v w : VectorClock K) : Prop := ∀ q, v.get q ≤ w.get q

section Growth
variable {u v w : VectorClock K} {m n : ℕ}

omit [LawfulEqOrd K] in
theorem Leq.refl (v : VectorClock K) : v.Leq v := fun _ => UInt64.le_refl _

omit [LawfulEqOrd K] in
theorem Leq.trans (h : u.Leq v) (h' : v.Leq w) : u.Leq w :=
  fun q => UInt64.le_trans (h q) (h' q)

omit [LawfulEqOrd K] in
theorem Below.mono (h : v.Below m) (hmn : m ≤ n) : v.Below n := fun q => (h q).trans hmn

omit [LawfulEqOrd K] in
theorem below_new (n : ℕ) : (new : VectorClock K).Below n := fun q => by simp

theorem leq_merge_left (v w : VectorClock K) : v.Leq (v.merge w) := by
  intro q
  rw [get_merge, UInt64.le_iff_toNat_le, MachineCounters.toNat_max]
  exact Nat.le_max_left ..

theorem leq_merge_right (v w : VectorClock K) : w.Leq (v.merge w) := by
  intro q
  rw [get_merge, UInt64.le_iff_toNat_le, MachineCounters.toNat_max]
  exact Nat.le_max_right ..

theorem Below.merge (h : v.Below n) (h' : w.Below n) : (v.merge w).Below n := by
  intro q
  rw [get_merge, MachineCounters.toNat_max]
  exact Nat.max_le.mpr ⟨h q, h' q⟩

section Tick
variable [DecidableEq K]

theorem toNat_get_tick (h : v.Below n) (hn : n + 1 < 2 ^ 64) (p q : K) :
    ((v.tick p).get q).toNat = (v.get q).toNat + if p = q then 1 else 0 := by
  have hle := h q
  rw [get_tick]
  split
  · exact MachineCounters.toNat_add_one (by omega)
  · rfl

theorem Below.tick (h : v.Below n) (hn : n + 1 < 2 ^ 64) (p : K) : (v.tick p).Below (n + 1) := by
  intro q
  have hle := h q
  rw [toNat_get_tick h hn]
  split <;> omega

theorem Below.leq_tick (h : v.Below n) (hn : n + 1 < 2 ^ 64) (p : K) : v.Leq (v.tick p) := by
  intro q
  rw [UInt64.le_iff_toNat_le, toNat_get_tick h hn]
  exact Nat.le_add_right ..

/-- What a process knew before an event happened before the event. -/
theorem Leq.happenedBefore_tick (hle : u.Leq v) (h : v.Below n) (hn : n + 1 < 2 ^ 64) (p : K) :
    u.happenedBefore (v.tick p) = true := by
  rw [happenedBefore_iff]
  refine ⟨hle.trans (h.leq_tick hn p), fun hback => ?_⟩
  have hlt := UInt64.le_iff_toNat_le.mp (hback p)
  have hup := UInt64.le_iff_toNat_le.mp (hle p)
  rw [toNat_get_tick h hn, if_pos rfl] at hlt
  omega

end Tick
end Growth
end VectorClock

structure Stamp (K : Type) [Ord K] where
  process : K
  lamport : UInt64
  vector : VectorClock K

namespace Stamp
variable {K : Type} [Ord K] [TransOrd K] [LawfulEqOrd K]

instance [DecidableEq K] : DecidableEq (Stamp K) := fun a b =>
  decidable_of_iff (a.process = b.process ∧ a.lamport = b.lamport ∧ a.vector = b.vector)
    (by cases a; cases b; simp)

def causality (s other : Stamp K) : Causality := s.vector.compare other.vector

def happenedBefore (s other : Stamp K) : Bool := s.vector.happenedBefore other.vector

/-- The derived `PartialEq`, which compares the vectors by their counters. -/
protected def eq [DecidableEq K] (s other : Stamp K) : Bool :=
  s.process == other.process && s.lamport == other.lamport && s.vector.eq other.vector

end Stamp

/-- One process's pair of clocks, advanced together. -/
structure EventClock (K : Type) [Ord K] where
  process : K
  lamport : LamportClock
  vector : VectorClock K

namespace EventClock
variable {K : Type} [Ord K] [TransOrd K] [LawfulEqOrd K]

instance [DecidableEq K] : DecidableEq (EventClock K) := fun a b =>
  decidable_of_iff (a.process = b.process ∧ a.lamport = b.lamport ∧ a.vector = b.vector)
    (by cases a; cases b; simp)

omit [TransOrd K] [LawfulEqOrd K] in
def new (process : K) : EventClock K := ⟨process, .new, .new⟩

omit [TransOrd K] [LawfulEqOrd K] in
def current (c : EventClock K) : Stamp K := ⟨c.process, c.lamport.time, c.vector⟩

def localEvent (c : EventClock K) : Stamp K × EventClock K :=
  let c' : EventClock K := ⟨c.process, c.lamport.tick, c.vector.tick c.process⟩
  (c'.current, c')

def sendEvent (c : EventClock K) : Stamp K × EventClock K := c.localEvent

def receiveEvent (c : EventClock K) (sent : Stamp K) : Stamp K × EventClock K :=
  let c' : EventClock K :=
    ⟨c.process, c.lamport.observe sent.lamport, (c.vector.merge sent.vector).tick c.process⟩
  (c'.current, c')

section Growth
open VectorClock
variable [DecidableEq K] {c : EventClock K} {s : Stamp K} {n : ℕ}

theorem below_sendEvent (h : c.vector.Below n) (hn : n + 1 < 2 ^ 64) :
    c.sendEvent.2.vector.Below (n + 1) := h.tick hn c.process

theorem leq_sendEvent (h : c.vector.Below n) (hn : n + 1 < 2 ^ 64) :
    c.vector.Leq c.sendEvent.2.vector := h.leq_tick hn c.process

theorem below_receiveEvent (h : c.vector.Below n) (hs : s.vector.Below n) (hn : n + 1 < 2 ^ 64) :
    (c.receiveEvent s).2.vector.Below (n + 1) := (h.merge hs).tick hn c.process

theorem leq_receiveEvent (h : c.vector.Below n) (hs : s.vector.Below n) (hn : n + 1 < 2 ^ 64) :
    c.vector.Leq (c.receiveEvent s).2.vector :=
  Leq.trans (leq_merge_left _ _) ((h.merge hs).leq_tick hn c.process)

theorem stamp_leq_receiveEvent (h : c.vector.Below n) (hs : s.vector.Below n) (hn : n + 1 < 2 ^ 64) :
    s.vector.Leq (c.receiveEvent s).2.vector :=
  Leq.trans (leq_merge_right _ _) ((h.merge hs).leq_tick hn c.process)

theorem happenedBefore_receiveEvent (h : c.vector.Below n) (hs : s.vector.Below n)
    (hn : n + 1 < 2 ^ 64) : s.happenedBefore (c.receiveEvent s).1 = true :=
  Leq.happenedBefore_tick (leq_merge_right _ _) (h.merge hs) hn c.process

theorem happenedBefore_sendEvent (hle : s.vector.Leq c.vector) (h : c.vector.Below n)
    (hn : n + 1 < 2 ^ 64) : s.happenedBefore c.sendEvent.1 = true :=
  hle.happenedBefore_tick h hn c.process

end Growth
end EventClock
end Muaddib
