import Mathlib

/-! # Pipelines that circulate a pool of items around a ring

A producer writes numbered batches into free items, a chain of stages works on them, and a sink
takes the result and returns the item. The processes take turns in a fixed order, one step each. -/
namespace Muaddib.RingPipelines

variable {α β : Type*}

/-- What the processes do to an item that passes through their hands. -/
structure Work (α β : Type*) where
  fill : ℕ → α → α
  stage : ℕ → α → α
  retire : α → α
  result : α → β

inductive Seat where
  | supervisor
  | sink
  | transformer (stage : ℕ)
  | producer
  deriving DecidableEq, Repr

def seats (stages : ℕ) : List Seat :=
  .supervisor :: .sink :: ((List.range stages).reverse.map .transformer ++ [.producer])

/-- The queue `chan i` feeds stage `i`, and the queue after the last stage feeds the sink. -/
structure Carousel (α β : Type*) where
  chan : ℕ → List (ℕ × α)
  returns : List α
  pool : List α
  next : ℕ
  results : List (ℕ × β)
  messages : ℕ

namespace Carousel

def start (pool : List α) : Carousel α β := ⟨fun _ => [], [], pool, 0, [], 0⟩

def turn (w : Work α β) (stages batches : ℕ) (r : Carousel α β) : Seat → Bool × Carousel α β
  | .supervisor => (false, r)
  | .sink =>
    match r.chan stages with
    | [] => (false, r)
    | (b, x) :: queue => (true, { r with
        chan := Function.update r.chan stages queue
        returns := r.returns ++ [w.retire x]
        results := r.results ++ [(b, w.result x)]
        messages := r.messages + 1 })
  | .transformer i =>
    match r.chan i with
    | [] => (false, r)
    | (b, x) :: queue => (true, { r with
        chan := Function.update (Function.update r.chan i queue) (i + 1)
          (r.chan (i + 1) ++ [(b, w.stage i x)])
        messages := r.messages + 1 })
  | .producer =>
    if r.next < batches then
      match r.pool ++ r.returns with
      | [] => (false, r)
      | x :: pool => (true, { r with
          chan := Function.update r.chan 0 (r.chan 0 ++ [(r.next, w.fill r.next x)])
          returns := []
          pool := pool
          next := r.next + 1
          messages := r.messages + 1 })
    else (!r.returns.isEmpty, { r with returns := [], pool := r.pool ++ r.returns })

/-- The items in the queues up to `chan k`, those furthest downstream first. -/
def flight (chan : ℕ → List (ℕ × α)) : ℕ → List (ℕ × α)
  | 0 => chan 0
  | k + 1 => chan (k + 1) ++ flight chan k

def items (r : Carousel α β) (stages : ℕ) : List α :=
  (flight r.chan stages).map Prod.snd ++ r.returns ++ r.pool

end Carousel

section Flight
variable {chan chan' : ℕ → List (ℕ × α)} {k i : ℕ}

open Carousel

theorem flight_congr (h : ∀ j, j ≤ k → chan' j = chan j) : flight chan' k = flight chan k := by
  induction k with
  | zero => exact h 0 le_rfl
  | succ k ih => rw [flight, flight, h (k + 1) le_rfl, ih fun j hj => h j (Nat.le_succ_of_le hj)]

theorem flight_sink {b : ℕ} {x : α} {queue : List (ℕ × α)} (h : chan k = (b, x) :: queue) :
    flight chan k = (b, x) :: flight (Function.update chan k queue) k := by
  cases k with
  | zero => rw [flight, flight, Function.update_self, h]
  | succ k =>
    rw [flight, flight, Function.update_self, h]
    have hrest : flight (Function.update chan (k + 1) queue) k = flight chan k := by
      apply flight_congr
      intro j hj
      rw [Function.update_of_ne (by omega)]
    rw [hrest, List.cons_append]

theorem flight_produce (item : ℕ × α) :
    flight (Function.update chan 0 (chan 0 ++ [item])) k = flight chan k ++ [item] := by
  induction k with
  | zero => rw [flight, flight, Function.update_self]
  | succ k ih => rw [flight, flight, Function.update_of_ne (Nat.succ_ne_zero k), ih, List.append_assoc]

theorem flight_stage {b : ℕ} {x y : α} {queue : List (ℕ × α)} (h : chan i = (b, x) :: queue)
    (hik : i < k) : ∃ downstream upstream, flight chan k = downstream ++ (b, x) :: upstream ∧
      flight (Function.update (Function.update chan i queue) (i + 1) (chan (i + 1) ++ [(b, y)])) k =
        downstream ++ (b, y) :: upstream := by
  induction k with
  | zero => omega
  | succ k ih =>
    rcases Nat.lt_succ_iff_lt_or_eq.mp hik with hlt | rfl
    · obtain ⟨downstream, upstream, hbefore, hafter⟩ := ih hlt
      refine ⟨chan (k + 1) ++ downstream, upstream, ?_, ?_⟩
      · rw [flight, hbefore, List.append_assoc]
      · rw [flight, hafter, Function.update_of_ne (by omega), Function.update_of_ne (by omega),
          List.append_assoc]
    · have hrest : flight (Function.update (Function.update chan i queue) (i + 1)
          (chan (i + 1) ++ [(b, y)])) i = flight (Function.update chan i queue) i := by
        apply flight_congr
        intro j hj
        rw [Function.update_of_ne (by omega)]
      refine ⟨chan (i + 1), flight (Function.update chan i queue) i, ?_, ?_⟩
      · rw [flight, flight_sink h]
      · rw [flight, hrest, Function.update_self, List.append_assoc]
        rfl

theorem mem_update {f : ℕ → List (ℕ × α)} {a : ℕ} {v : List (ℕ × α)} {y : ℕ × α}
    (h : y ∈ Function.update f a v k) : k = a ∧ y ∈ v ∨ k ≠ a ∧ y ∈ f k := by
  by_cases heq : k = a
  · subst heq
    rw [Function.update_self] at h
    exact Or.inl ⟨rfl, h⟩
  · rw [Function.update_of_ne heq] at h
    exact Or.inr ⟨heq, h⟩

theorem mem_flight {x : ℕ × α} : x ∈ flight chan k ↔ ∃ j, j ≤ k ∧ x ∈ chan j := by
  induction k with
  | zero => simp [flight]
  | succ k ih =>
    rw [flight, List.mem_append, ih]
    constructor
    · rintro (h | ⟨j, hj, h⟩)
      · exact ⟨k + 1, le_rfl, h⟩
      · exact ⟨j, Nat.le_succ_of_le hj, h⟩
    · rintro ⟨j, hj, h⟩
      rcases Nat.le_succ_iff.mp hj with hj | rfl
      · exact Or.inr ⟨j, hj, h⟩
      · exact Or.inl h

theorem length_flight_take {item : ℕ × α} {queue : List (ℕ × α)} (h : chan i = item :: queue) :
    (flight (Function.update chan i queue) k).length ≤ (flight chan k).length := by
  have hone : ∀ j, (Function.update chan i queue j).length ≤ (chan j).length := by
    intro j
    rw [Function.update_apply]
    split
    · next hj =>
      rw [hj, h]
      exact Nat.le_succ _
    · exact le_rfl
  induction k with
  | zero => exact hone 0
  | succ k ih =>
    rw [flight, flight, List.length_append, List.length_append]
    exact Nat.add_le_add (hone (k + 1)) ih

/-- Of all the queues up to some stage only those up to the one worked on lose an item. -/
theorem length_flight_stage {b : ℕ} {x y : α} {queue : List (ℕ × α)}
    (h : chan i = (b, x) :: queue) :
    (flight (Function.update (Function.update chan i queue) (i + 1)
      (chan (i + 1) ++ [(b, y)])) k).length + (if k = i then 1 else 0) = (flight chan k).length := by
  rcases Nat.lt_trichotomy k i with hlt | rfl | hgt
  · rw [if_neg (by omega), Nat.add_zero]
    congr 1
    apply flight_congr
    intro j hj
    rw [Function.update_of_ne (by omega), Function.update_of_ne (by omega)]
  · have hrest : flight (Function.update (Function.update chan k queue) (k + 1)
        (chan (k + 1) ++ [(b, y)])) k = flight (Function.update chan k queue) k := by
      apply flight_congr
      intro j hj
      rw [Function.update_of_ne (by omega)]
    rw [if_pos rfl, flight_sink h, hrest, List.length_cons]
  · obtain ⟨downstream, upstream, hbefore, hafter⟩ := flight_stage (y := y) h hgt
    rw [if_neg (by omega), hbefore, hafter, List.length_append, List.length_append,
      List.length_cons, List.length_cons, Nat.add_zero]

end Flight

namespace Carousel
variable {w : Work α β} {stages batches total : ℕ} {Valid : α → Prop} {first : ℕ → α}
  {r : Carousel α β}

/-- A batch before stage `k`. -/
def content (w : Work α β) (first : ℕ → α) (b : ℕ) : ℕ → α
  | 0 => first b
  | k + 1 => w.stage k (content w first b k)

/-- Filling makes nothing of what the item held, as long as it is valid, and work keeps it valid. -/
structure Lawful (w : Work α β) (Valid : α → Prop) (first : ℕ → α) : Prop where
  fill : ∀ b x, Valid x → w.fill b x = first b
  first : ∀ b, Valid (first b)
  stage : ∀ i x, Valid x → Valid (w.stage i x)
  retire : ∀ x, Valid x → Valid (w.retire x)

theorem Lawful.content (h : Lawful w Valid first) (b k : ℕ) : Valid (content w first b k) := by
  induction k with
  | zero => exact h.first b
  | succ k ih => exact h.stage k _ ih

/-- The batches in flight are those not finished, in order and each at its stage; the finished ones
were finished in order; and no item is lost. -/
structure Sound (w : Work α β) (Valid : α → Prop) (first : ℕ → α) (stages batches total : ℕ)
    (r : Carousel α β) : Prop where
  order : (flight r.chan stages).map Prod.fst =
    List.range' r.results.length (r.next - r.results.length)
  done_le : r.results.length ≤ r.next
  next_le : r.next ≤ batches
  results : r.results = (List.range r.results.length).map fun b =>
    (b, w.result (content w first b stages))
  queued : ∀ k, k ≤ stages → ∀ x ∈ r.chan k, x.2 = content w first x.1 k
  valid : ∀ x ∈ r.pool ++ r.returns, Valid x
  count : (r.items stages).length = total

theorem sound_start {pool : List α} (hvalid : ∀ x ∈ pool, Valid x) :
    Sound w Valid first stages batches pool.length (Carousel.start pool) := by
  have hempty : ∀ k, flight (start pool : Carousel α β).chan k = [] := by
    intro k
    induction k with
    | zero => rfl
    | succ k ih => rw [flight, ih]; rfl
  refine ⟨?_, le_rfl, Nat.zero_le _, rfl, ?_, ?_, ?_⟩
  · rw [hempty]
    rfl
  · intro k _ x hx
    cases hx
  · simpa [start] using hvalid
  · rw [items, hempty]
    simp [start]

theorem Sound.flight_length (h : Sound w Valid first stages batches total r) :
    (flight r.chan stages).length = r.next - r.results.length := by
  have hlen := congrArg List.length h.order
  rwa [List.length_map, List.length_range'] at hlen

private theorem Sound.sink (h : Sound w Valid first stages batches total r)
    (hlaw : Lawful w Valid first) :
    Sound w Valid first stages batches total (r.turn w stages batches .sink).2 := by
  cases hc : r.chan stages with
  | nil => simpa only [turn, hc] using h
  | cons item queue =>
    obtain ⟨b, x⟩ := item
    simp only [turn, hc]
    have hflight := flight_sink hc
    have hx : x = content w first b stages :=
      h.queued stages le_rfl (b, x) (hc ▸ List.mem_cons_self)
    have hlen := h.flight_length
    have horder := h.order
    rw [hflight, List.length_cons] at hlen
    have hmore : r.next - r.results.length = (r.next - (r.results.length + 1)) + 1 := by omega
    rw [hflight, List.map_cons, hmore, List.range'_succ, List.cons.injEq] at horder
    obtain ⟨hb, horder⟩ := horder
    have hb : b = r.results.length := hb
    refine ⟨?_, ?_, h.next_le, ?_, ?_, ?_, ?_⟩
    · rw [List.length_append, List.length_singleton]
      exact horder
    · rw [List.length_append, List.length_singleton]
      change r.results.length + 1 ≤ r.next
      omega
    · rw [List.length_append, List.length_singleton, List.range_succ, List.map_append, ← h.results,
        List.map_singleton, hx, hb]
    · intro k hk y hy
      rcases mem_update hy with ⟨rfl, hmem⟩ | ⟨-, hmem⟩
      · exact h.queued k hk y (hc ▸ List.mem_cons_of_mem _ hmem)
      · exact h.queued k hk y hmem
    · intro y hy
      rw [← List.append_assoc] at hy
      rcases List.mem_append.mp hy with hy | hy
      · exact h.valid y hy
      · rw [List.mem_singleton.mp hy, hx]
        exact hlaw.retire _ (hlaw.content b stages)
    · have hcount := h.count
      rw [items, hflight] at hcount
      rw [← hcount, items]
      simp only [List.length_append, List.length_map, List.length_cons, List.length_nil]
      omega

private theorem Sound.transformer (h : Sound w Valid first stages batches total r)
    {i : ℕ} (hi : i < stages) :
    Sound w Valid first stages batches total (r.turn w stages batches (.transformer i)).2 := by
  cases hc : r.chan i with
  | nil => simpa only [turn, hc] using h
  | cons item queue =>
    obtain ⟨b, x⟩ := item
    simp only [turn, hc]
    obtain ⟨downstream, upstream, hbefore, hafter⟩ := flight_stage (y := w.stage i x) hc hi
    have hx : x = content w first b i := h.queued i hi.le (b, x) (hc ▸ List.mem_cons_self)
    refine ⟨?_, h.done_le, h.next_le, h.results, ?_, h.valid, ?_⟩
    · rw [← h.order, hbefore, hafter]
      simp
    · intro k hk y hy
      rcases mem_update hy with ⟨rfl, hmem⟩ | ⟨-, hmem⟩
      · rcases List.mem_append.mp hmem with hmem | hmem
        · exact h.queued (i + 1) hk y hmem
        · rw [List.mem_singleton.mp hmem, hx]
          rfl
      · rcases mem_update hmem with ⟨rfl, hold⟩ | ⟨-, hold⟩
        · exact h.queued k hk y (hc ▸ List.mem_cons_of_mem _ hold)
        · exact h.queued k hk y hold
    · rw [← h.count, items, items, hbefore, hafter]
      simp

private theorem Sound.producer (h : Sound w Valid first stages batches total r)
    (hlaw : Lawful w Valid first) :
    Sound w Valid first stages batches total (r.turn w stages batches .producer).2 := by
  have hcount := h.count
  rw [items, List.length_append, List.length_append, List.length_map] at hcount
  have hdrained : ∀ x ∈ r.pool ++ r.returns ++ [], Valid x := by
    rw [List.append_nil]
    exact h.valid
  rw [turn]
  split
  · next hlt =>
    cases hp : r.pool ++ r.returns with
    | nil => exact h
    | cons x pool =>
      have hx : Valid x := h.valid x (hp ▸ List.mem_cons_self)
      have hlen := congrArg List.length hp
      rw [List.length_append, List.length_cons] at hlen
      refine ⟨?_, Nat.le_succ_of_le h.done_le, hlt, h.results, ?_, ?_, ?_⟩
      · have hmore : r.next + 1 - r.results.length = (r.next - r.results.length) + 1 := by
          have hle := h.done_le
          omega
        have hlast : r.results.length + (r.next - r.results.length) = r.next :=
          Nat.add_sub_cancel' h.done_le
        rw [flight_produce, List.map_append, h.order, hmore, List.range'_concat, Nat.one_mul, hlast,
          List.map_singleton]
      · intro k hk y hy
        rcases mem_update hy with ⟨rfl, hmem⟩ | ⟨-, hmem⟩
        · rcases List.mem_append.mp hmem with hmem | hmem
          · exact h.queued 0 hk y hmem
          · rw [List.mem_singleton.mp hmem]
            exact hlaw.fill r.next x hx
        · exact h.queued k hk y hmem
      · intro y hy
        rw [List.append_nil] at hy
        exact h.valid y (hp ▸ List.mem_cons_of_mem x hy)
      · rw [items, flight_produce]
        simp only [List.length_append, List.length_map, List.length_cons, List.length_nil]
        omega
  · refine ⟨h.order, h.done_le, h.next_le, h.results, h.queued, hdrained, ?_⟩
    rw [items]
    simp only [List.length_append, List.length_map, List.length_nil]
    omega

/-- Every turn of every process keeps the ring sound. -/
theorem Sound.turn (h : Sound w Valid first stages batches total r) (hlaw : Lawful w Valid first)
    {seat : Seat} (hseat : seat ∈ seats stages) :
    Sound w Valid first stages batches total (r.turn w stages batches seat).2 := by
  cases seat with
  | supervisor => exact h
  | sink => exact h.sink hlaw
  | transformer i => exact h.transformer (by simpa [seats] using hseat)
  | producer => exact h.producer hlaw

def drained (r : Carousel α β) : Carousel α β :=
  { r with returns := [], pool := r.pool ++ r.returns }

/-- The producer takes back what was returned before it does anything else. -/
theorem turn_producer (w : Work α β) (stages batches : ℕ) (r : Carousel α β) :
    r.turn w stages batches .producer =
      (!r.returns.isEmpty || (r.drained.turn w stages batches .producer).1,
        (r.drained.turn w stages batches .producer).2) := by
  by_cases hlt : r.next < batches
  · cases hp : r.pool ++ r.returns with
    | nil =>
      obtain ⟨hpool, hreturns⟩ := List.append_eq_nil_iff.mp hp
      have hsame : r.drained = r := by
        cases r
        simp_all [drained]
      rw [hsame, hreturns, List.isEmpty_nil, Bool.not_true, Bool.false_or]
    | cons x pool => simp [turn, drained, hlt, hp]
  · simp [turn, drained, hlt]

/-- The number of items taken out of queue `k` so far. -/
def taken (r : Carousel α β) (k : ℕ) : ℕ := r.next - (flight r.chan k).length

/-- Every batch that was begun is in flight or done, the item at the head of a queue is the next
one to be taken from it, and no item is lost. -/
structure Counted (stages batches total : ℕ) (r : Carousel α β) : Prop where
  next_le : r.next ≤ batches
  flight_length : r.results.length + (flight r.chan stages).length = r.next
  head : ∀ k, k ≤ stages → ∀ b x queue, r.chan k = (b, x) :: queue →
    b + (flight r.chan k).length = r.next
  count : (flight r.chan stages).length + r.returns.length + r.pool.length = total

theorem length_flight_mono (chan : ℕ → List (ℕ × α)) {j k : ℕ} (hjk : j ≤ k) :
    (flight chan j).length ≤ (flight chan k).length := by
  induction k with
  | zero => rw [Nat.le_zero.mp hjk]
  | succ k ih =>
    rcases Nat.le_succ_iff.mp hjk with hle | rfl
    · rw [flight, List.length_append]
      exact (ih hle).trans (Nat.le_add_left ..)
    · exact le_rfl

/-- The queues up to `chan k` are the upstream end of what is in flight. -/
theorem exists_flight_append (chan : ℕ → List (ℕ × α)) {j k : ℕ} (hjk : j ≤ k) :
    ∃ downstream, flight chan k = downstream ++ flight chan j := by
  induction k with
  | zero =>
    obtain rfl := Nat.le_zero.mp hjk
    exact ⟨[], rfl⟩
  | succ k ih =>
    rcases Nat.le_succ_iff.mp hjk with hle | rfl
    · obtain ⟨downstream, h⟩ := ih hle
      exact ⟨chan (k + 1) ++ downstream, by rw [flight, h, List.append_assoc]⟩
    · exact ⟨[], rfl⟩

theorem Sound.counted (h : Sound w Valid first stages batches total r) :
    Counted stages batches total r := by
  have hlen := h.flight_length
  have hdone := h.done_le
  have hcount := h.count
  rw [items, List.length_append, List.length_append, List.length_map] at hcount
  refine ⟨h.next_le, by omega, fun k hk b x queue hc => ?_, hcount⟩
  obtain ⟨downstream, hsplit⟩ := exists_flight_append r.chan hk
  have horder := h.order
  rw [hsplit, flight_sink hc, List.map_append, List.map_cons] at horder
  rw [hsplit, List.length_append] at hlen
  -- the item at the head of queue `k` comes after the items downstream
  have hget := congrArg (·[downstream.length]?) horder
  rw [List.getElem?_append_right (by simp), List.length_map, Nat.sub_self, List.getElem?_cons_zero,
    List.getElem?_range' (by rw [← hlen, flight_sink hc, List.length_cons]; omega)] at hget
  have hb := Option.some.inj hget
  change b = r.results.length + 1 * downstream.length at hb
  omega

namespace Counted

theorem taken_add (h : Counted stages batches total r) {k : ℕ} (hk : k ≤ stages) :
    r.taken k + (flight r.chan k).length = r.next := by
  have hmono := length_flight_mono r.chan hk
  have hflight := h.flight_length
  unfold taken
  omega

theorem taken_stages (h : Counted stages batches total r) : r.taken stages = r.results.length := by
  have hflight := h.flight_length
  unfold taken
  omega

theorem head_eq (h : Counted stages batches total r) {k b : ℕ} (hk : k ≤ stages) {x : α}
    {queue : List (ℕ × α)} (hc : r.chan k = (b, x) :: queue) : b = r.taken k := by
  have hhead := h.head k hk b x queue hc
  have htaken := h.taken_add hk
  omega

theorem drained (h : Counted stages batches total r) : Counted stages batches total r.drained := by
  refine ⟨h.next_le, h.flight_length, h.head, ?_⟩
  have hcount := h.count
  simp only [Carousel.drained, List.length_append, List.length_nil]
  omega

end Counted

section Items
variable {b : ℕ} {x : α} {queue : List (ℕ × α)} {pool : List α}

theorem items_sink (hc : r.chan stages = (b, x) :: queue) (y : α) (results : List (ℕ × β))
    (messages : ℕ) : ∃ rest, (r.items stages).Perm (x :: rest) ∧
    (items { r with
      chan := Function.update r.chan stages queue
      returns := r.returns ++ [y]
      results := results
      messages := messages } stages).Perm (y :: rest) := by
  refine ⟨(flight (Function.update r.chan stages queue) stages).map Prod.snd ++ r.returns ++ r.pool,
    ?_, ?_⟩
  · rw [items, flight_sink hc]
    exact List.Perm.refl _
  · rw [items, List.append_assoc, List.append_assoc, List.append_assoc]
    refine (List.Perm.append_left _ List.perm_middle).trans ?_
    exact List.perm_middle

theorem items_stage {i : ℕ} (hi : i < stages) (hc : r.chan i = (b, x) :: queue) (y : α)
    (messages : ℕ) : ∃ rest, (r.items stages).Perm (x :: rest) ∧
      (items { r with
        chan := Function.update (Function.update r.chan i queue) (i + 1)
          (r.chan (i + 1) ++ [(b, y)])
        messages := messages } stages).Perm (y :: rest) := by
  obtain ⟨downstream, upstream, hbefore, hafter⟩ := flight_stage (y := y) hc hi
  refine ⟨downstream.map Prod.snd ++ (upstream.map Prod.snd ++ (r.returns ++ r.pool)), ?_, ?_⟩
  · rw [items, hbefore, List.map_append, List.map_cons, List.append_assoc, List.append_assoc]
    exact List.perm_middle
  · rw [items, hafter, List.map_append, List.map_cons, List.append_assoc, List.append_assoc]
    exact List.perm_middle

theorem items_fill (stages : ℕ) (hp : r.pool = x :: pool) (b : ℕ) (y : α) (next messages : ℕ) :
    ∃ rest, (r.items stages).Perm (x :: rest) ∧
    (items { r with
      chan := Function.update r.chan 0 (r.chan 0 ++ [(b, y)])
      pool := pool
      next := next
      messages := messages } stages).Perm (y :: rest) := by
  refine ⟨(flight r.chan stages).map Prod.snd ++ (r.returns ++ pool), ?_, ?_⟩
  · rw [items, hp, List.append_assoc]
    refine (List.Perm.append_left _ List.perm_middle).trans ?_
    exact List.perm_middle
  · rw [items, flight_produce, List.map_append, List.append_assoc, List.append_assoc]
    exact List.perm_middle

theorem items_drain (r : Carousel α β) (stages : ℕ) :
    (r.items stages).Perm (r.drained.items stages) := by
  rw [items, items, drained, List.append_assoc, List.append_assoc, List.nil_append]
  exact List.Perm.append_left _ List.perm_append_comm

end Items

/-- The places of the ring: the pool, and the queues with the returns as the last. -/
inductive Spot where
  | pooled (i : ℕ)
  | queued (k i : ℕ)
  deriving DecidableEq, Repr

def itemAt (r : Carousel α β) (stages : ℕ) : Spot → Option α
  | .pooled i => r.pool[i]?
  | .queued k i =>
    if k ≤ stages then (r.chan k)[i]?.map Prod.snd
    else if k = stages + 1 then r.returns[i]? else none

section Spots
variable {γ : Type*} {f : α → γ} {chan : ℕ → List (ℕ × α)} {k k' i i' : ℕ} {x y : α}

theorem index_unique {l : List α} (hl : (l.map f).Nodup) (hx : l[i]? = some x)
    (hy : l[i']? = some y) (hxy : f x = f y) : i = i' := by
  have hi : i < (l.map f).length := by
    rw [List.length_map]
    exact (List.getElem?_eq_some_iff.mp hx).1
  apply (List.getElem?_inj hi hl).mp
  rw [List.getElem?_map, List.getElem?_map, hx, hy, Option.map_some, Option.map_some, hxy]

theorem flight_unique {u v : ℕ × α} (hflight : ((flight chan stages).map fun u => f u.2).Nodup)
    (hk : k ≤ stages) (hk' : k' ≤ stages) (hu : (chan k)[i]? = some u) (hv : (chan k')[i']? = some v)
    (huv : f u.2 = f v.2) : k = k' ∧ i = i' := by
  induction stages with
  | zero =>
    obtain rfl := Nat.le_zero.mp hk
    obtain rfl := Nat.le_zero.mp hk'
    exact ⟨rfl, index_unique hflight hu hv huv⟩
  | succ n ih =>
    rw [flight, List.map_append] at hflight
    have hdisjoint := List.disjoint_of_nodup_append hflight
    have hlast : ∀ {j : ℕ} {w z : ℕ × α} {a b : ℕ}, j ≤ n → (chan (n + 1))[a]? = some w →
        (chan j)[b]? = some z → f w.2 ≠ f z.2 := by
      intro j w z a b hj hw hz heq
      have hmem : z ∈ flight chan n := mem_flight.mpr ⟨j, hj, List.mem_of_getElem? hz⟩
      exact hdisjoint (List.mem_map_of_mem (List.mem_of_getElem? hw))
        (heq ▸ List.mem_map_of_mem (f := fun u => f u.2) hmem)
    rcases Nat.le_succ_iff.mp hk with hle | rfl
    · rcases Nat.le_succ_iff.mp hk' with hle' | rfl
      · exact ih hflight.of_append_right hle hle'
      · exact absurd huv.symm (hlast hle hv hu)
    · rcases Nat.le_succ_iff.mp hk' with hle' | rfl
      · exact absurd huv (hlast hle' hu hv)
      · exact ⟨rfl, index_unique hflight.of_append_left hu hv huv⟩

theorem exists_itemAt (hx : x ∈ r.items stages) : ∃ spot, r.itemAt stages spot = some x := by
  rw [items, List.append_assoc, List.mem_append, List.mem_append] at hx
  rcases hx with hx | hx | hx
  · obtain ⟨u, hu, rfl⟩ := List.mem_map.mp hx
    obtain ⟨k, hk, hu⟩ := mem_flight.mp hu
    obtain ⟨i, hi⟩ := List.mem_iff_getElem?.mp hu
    exact ⟨.queued k i, by rw [itemAt, if_pos hk, hi, Option.map_some]⟩
  · obtain ⟨i, hi⟩ := List.mem_iff_getElem?.mp hx
    exact ⟨.queued (stages + 1) i, by rw [itemAt, if_neg (by omega), if_pos rfl, hi]⟩
  · obtain ⟨i, hi⟩ := List.mem_iff_getElem?.mp hx
    exact ⟨.pooled i, hi⟩

theorem mem_flight_of_itemAt (hk : k ≤ stages) (hx : r.itemAt stages (.queued k i) = some x) :
    ∃ u, (r.chan k)[i]? = some u ∧ u.2 = x ∧ x ∈ (flight r.chan stages).map Prod.snd := by
  rw [itemAt, if_pos hk] at hx
  obtain ⟨u, hu, rfl⟩ := Option.map_eq_some_iff.mp hx
  exact ⟨u, hu, rfl, List.mem_map_of_mem (mem_flight.mpr ⟨k, hk, List.mem_of_getElem? hu⟩)⟩

theorem returned_of_itemAt (hk : ¬k ≤ stages) (hx : r.itemAt stages (.queued k i) = some x) :
    k = stages + 1 ∧ r.returns[i]? = some x := by
  rw [itemAt, if_neg hk] at hx
  split at hx
  · next heq => exact ⟨heq, hx⟩
  · cases hx

theorem itemAt_unique {spot spot' : Spot} (hnodup : ((r.items stages).map f).Nodup)
    (hx : r.itemAt stages spot = some x) (hy : r.itemAt stages spot' = some y) (hxy : f x = f y) :
    spot = spot' := by
  rw [items, List.map_append, List.map_append, List.append_assoc] at hnodup
  have hflight := hnodup.of_append_left
  have hrest := hnodup.of_append_right
  have hqueued := List.disjoint_of_nodup_append hnodup
  have hpooled := List.disjoint_of_nodup_append hrest
  rw [List.map_map] at hflight
  have hreturns : ∀ {i : ℕ} {z : α}, r.returns[i]? = some z →
      f z ∈ r.returns.map f ++ r.pool.map f := by
    intro i z hz
    exact List.mem_append_left _ (List.mem_map_of_mem (List.mem_of_getElem? hz))
  have hpool : ∀ {i : ℕ} {z : α}, r.pool[i]? = some z →
      f z ∈ r.returns.map f ++ r.pool.map f := by
    intro i z hz
    exact List.mem_append_right _ (List.mem_map_of_mem (List.mem_of_getElem? hz))
  have happart : ∀ {k i : ℕ} {z z' : α}, k ≤ stages → r.itemAt stages (.queued k i) = some z →
      f z' ∈ r.returns.map f ++ r.pool.map f → f z ≠ f z' := by
    intro k i z z' hk hz hz' heq
    obtain ⟨u, -, -, hmem⟩ := mem_flight_of_itemAt hk hz
    exact hqueued (List.mem_map_of_mem hmem) (heq ▸ hz')
  cases spot with
  | pooled i =>
    cases spot' with
    | pooled i' => rw [index_unique hrest.of_append_right hx hy hxy]
    | queued k' i' =>
      by_cases hk' : k' ≤ stages
      · exact absurd hxy.symm (happart hk' hy (hpool hx))
      · obtain ⟨-, hy⟩ := returned_of_itemAt hk' hy
        exact absurd (List.mem_map_of_mem (List.mem_of_getElem? hx))
          (hpooled (hxy ▸ List.mem_map_of_mem (List.mem_of_getElem? hy)))
  | queued k i =>
    by_cases hk : k ≤ stages
    · cases spot' with
      | pooled i' => exact absurd hxy (happart hk hx (hpool hy))
      | queued k' i' =>
        by_cases hk' : k' ≤ stages
        · obtain ⟨u, hu, rfl, -⟩ := mem_flight_of_itemAt hk hx
          obtain ⟨v, hv, rfl, -⟩ := mem_flight_of_itemAt hk' hy
          obtain ⟨rfl, rfl⟩ := flight_unique hflight hk hk' hu hv hxy
          rfl
        · obtain ⟨-, hy⟩ := returned_of_itemAt hk' hy
          exact absurd hxy (happart hk hx (hreturns hy))
    · obtain ⟨hlast, hx⟩ := returned_of_itemAt hk hx
      cases spot' with
      | pooled i' =>
        exact absurd (List.mem_map_of_mem (List.mem_of_getElem? hy))
          (hpooled (hxy ▸ List.mem_map_of_mem (List.mem_of_getElem? hx)))
      | queued k' i' =>
        by_cases hk' : k' ≤ stages
        · exact absurd hxy.symm (happart hk' hy (hreturns hx))
        · obtain ⟨hlast', hy⟩ := returned_of_itemAt hk' hy
          rw [hlast, hlast', index_unique hrest.of_append_left hx hy hxy]

theorem length_flight_eq_sum (chan : ℕ → List (ℕ × α)) (k : ℕ) :
    (flight chan k).length = ((List.range (k + 1)).map fun j => (chan j).length).sum := by
  induction k with
  | zero => simp [flight]
  | succ k ih =>
    rw [flight, List.length_append, ih, List.range_succ (n := k + 1), List.map_append,
      List.sum_append, List.map_singleton, List.sum_singleton, Nat.add_comm]

end Spots

/-- The steps still to be made by the items in the queues up to `chan k`. -/
def load (stages : ℕ) (chan : ℕ → List (ℕ × α)) : ℕ → ℕ
  | 0 => (stages + 2) * (chan 0).length
  | k + 1 => (stages + 2 - (k + 1)) * (chan (k + 1)).length + load stages chan k

def remaining (stages batches : ℕ) (r : Carousel α β) : ℕ :=
  (stages + 3) * (batches - r.next) + load stages r.chan stages + r.returns.length

theorem load_congr {chan chan' : ℕ → List (ℕ × α)} {k : ℕ} (h : ∀ j, j ≤ k → chan' j = chan j) :
    load stages chan' k = load stages chan k := by
  induction k with
  | zero => rw [load, load, h 0 le_rfl]
  | succ k ih => rw [load, load, h (k + 1) le_rfl, ih fun j hj => h j (Nat.le_succ_of_le hj)]

theorem load_take {chan : ℕ → List (ℕ × α)} {k : ℕ} {item : ℕ × α} {queue : List (ℕ × α)}
    (h : chan k = item :: queue) :
    load stages chan k = load stages (Function.update chan k queue) k + (stages + 2 - k) := by
  cases k with
  | zero =>
    rw [load, load, Function.update_self, h, List.length_cons, Nat.mul_succ]
    rfl
  | succ k =>
    have hrest : load stages (Function.update chan (k + 1) queue) k = load stages chan k := by
      apply load_congr
      intro j hj
      rw [Function.update_of_ne (by omega)]
    rw [load, load, Function.update_self, h, hrest, List.length_cons, Nat.mul_succ]
    omega

theorem load_produce (chan : ℕ → List (ℕ × α)) (item : ℕ × α) (k : ℕ) :
    load stages (Function.update chan 0 (chan 0 ++ [item])) k = load stages chan k + (stages + 2) := by
  induction k with
  | zero =>
    rw [load, load, Function.update_self, List.length_append, List.length_singleton, Nat.mul_succ]
  | succ k ih =>
    rw [load, load, Function.update_of_ne (Nat.succ_ne_zero k), ih, Nat.add_assoc]

theorem load_stage {chan : ℕ → List (ℕ × α)} {i k b : ℕ} {x y : α} {queue : List (ℕ × α)}
    (h : chan i = (b, x) :: queue) (hik : i < k) (hk : k ≤ stages) :
    load stages chan k = load stages (Function.update (Function.update chan i queue) (i + 1)
      (chan (i + 1) ++ [(b, y)])) k + 1 := by
  induction k with
  | zero => omega
  | succ k ih =>
    rcases Nat.lt_succ_iff_lt_or_eq.mp hik with hlt | rfl
    · have hrest := ih hlt (by omega)
      rw [load, load, hrest, Function.update_of_ne (by omega), Function.update_of_ne (by omega)]
      omega
    · have hrest : load stages (Function.update (Function.update chan i queue) (i + 1)
          (chan (i + 1) ++ [(b, y)])) i = load stages (Function.update chan i queue) i := by
        apply load_congr
        intro j hj
        rw [Function.update_of_ne (by omega)]
      rw [load, load, hrest, load_take h, Function.update_self, List.length_append,
        List.length_singleton, Nat.mul_succ]
      omega

theorem remaining_lt {seat : Seat} (hseat : seat ∈ seats stages)
    (hprogress : (r.turn w stages batches seat).1 = true) :
    remaining stages batches (r.turn w stages batches seat).2 < remaining stages batches r := by
  cases seat with
  | supervisor => cases hprogress
  | sink =>
    cases hc : r.chan stages with
    | nil =>
      rw [turn, hc] at hprogress
      cases hprogress
    | cons item queue =>
      have htake : load stages r.chan stages = _ := load_take hc
      simp only [turn, hc, remaining, List.length_append, List.length_singleton]
      omega
  | transformer i =>
    have hi : i < stages := by simpa [seats] using hseat
    cases hc : r.chan i with
    | nil =>
      rw [turn, hc] at hprogress
      cases hprogress
    | cons item queue =>
      obtain ⟨b, x⟩ := item
      have hstage : load stages r.chan stages = _ := load_stage (y := w.stage i x) hc hi le_rfl
      simp only [turn, hc, remaining]
      omega
  | producer =>
    rw [turn] at hprogress ⊢
    split
    · next hlt =>
      rw [if_pos hlt] at hprogress
      cases hp : r.pool ++ r.returns with
      | nil =>
        rw [hp] at hprogress
        cases hprogress
      | cons x pool =>
        have hless : batches - r.next = (batches - (r.next + 1)) + 1 := by omega
        simp only [remaining, load_produce, List.length_nil]
        rw [hless, Nat.mul_succ]
        omega
    · next hge =>
      rw [if_neg hge] at hprogress
      have hpos : 0 < r.returns.length := by
        rw [List.length_pos_iff]
        rintro hnil
        rw [hnil] at hprogress
        cases hprogress
      simp only [remaining, List.length_nil]
      omega

theorem turn_idle {seat : Seat} (hidle : (r.turn w stages batches seat).1 = false) :
    (r.turn w stages batches seat).2 = r := by
  cases seat with
  | supervisor => rfl
  | sink =>
    cases hc : r.chan stages with
    | nil => rw [turn, hc]
    | cons item queue =>
      rw [turn, hc] at hidle
      cases hidle
  | transformer i =>
    cases hc : r.chan i with
    | nil => rw [turn, hc]
    | cons item queue =>
      rw [turn, hc] at hidle
      cases hidle
  | producer =>
    rw [turn] at hidle ⊢
    split
    · next hlt =>
      rw [if_pos hlt] at hidle
      cases hp : r.pool ++ r.returns with
      | nil => rfl
      | cons x pool =>
        rw [hp] at hidle
        cases hidle
    · next hge =>
      rw [if_neg hge] at hidle
      have hnil : r.returns = [] := by simpa using hidle
      rw [hnil, List.append_nil]
      exact congrArg (fun returns => { r with returns := returns }) hnil.symm

theorem messages_add_remaining_le {seat : Seat} (hseat : seat ∈ seats stages) :
    (r.turn w stages batches seat).2.messages +
      remaining stages batches (r.turn w stages batches seat).2 ≤
      r.messages + remaining stages batches r := by
  cases hprogress : (r.turn w stages batches seat).1 with
  | false => rw [turn_idle hprogress]
  | true =>
    have hlt := remaining_lt hseat hprogress
    have hone : (r.turn w stages batches seat).2.messages ≤ r.messages + 1 := by
      cases seat with
      | supervisor => exact Nat.le_succ _
      | sink | transformer i =>
        rw [turn]
        split
        · exact Nat.le_succ _
        · exact le_rfl
      | producer =>
        rw [turn]
        split
        · split
          · exact Nat.le_succ _
          · exact le_rfl
        · exact Nat.le_succ _
    omega

/-- When no process has anything to do, and there are items, every batch is finished. -/
theorem Sound.finished_of_idle (h : Sound w Valid first stages batches total r) (hpos : 0 < total)
    (hidle : ∀ seat ∈ seats stages, (r.turn w stages batches seat).1 = false) :
    batches ≤ r.results.length := by
  have hempty : flight r.chan stages = [] := by
    rw [List.eq_nil_iff_forall_not_mem]
    intro x hx
    obtain ⟨j, hj, hx⟩ := mem_flight.mp hx
    have hnil : r.chan j = [] := by
      rcases Nat.eq_or_lt_of_le hj with rfl | hj
      · have hsink := hidle .sink (by simp [seats])
        cases hc : r.chan j with
        | nil => rfl
        | cons item queue =>
          rw [Carousel.turn, hc] at hsink
          cases hsink
      · have hstage := hidle (.transformer j) (by simp [seats, hj])
        cases hc : r.chan j with
        | nil => rfl
        | cons item queue =>
          rw [Carousel.turn, hc] at hstage
          cases hstage
    rw [hnil] at hx
    cases hx
  have hdone := h.flight_length
  rw [hempty, List.length_nil] at hdone
  have hcount := h.count
  rw [items, hempty, List.length_append, List.length_append] at hcount
  simp only [List.map_nil, List.length_nil] at hcount
  have hproducer := hidle .producer (by simp [seats])
  rw [Carousel.turn] at hproducer
  by_cases hlt : r.next < batches
  · rw [if_pos hlt] at hproducer
    cases hp : r.pool ++ r.returns with
    | nil =>
      have hlen := congrArg List.length hp
      rw [List.length_append, List.length_nil] at hlen
      omega
    | cons x pool =>
      rw [hp] at hproducer
      cases hproducer
  · omega

end Carousel

/-- How a run ends: with the turns handed out, and when it finished also the idle ones and the
ring. -/
inductive Ending (α β : Type*) where
  | finished (turns idle : ℕ) (r : Carousel α β)
  | stalled (turns : ℕ)

def roundRobin (stages t : ℕ) : Seat := ((seats stages)[t % (stages + 3)]?).getD .supervisor

section Runs
variable (w : Work α β) (stages batches : ℕ) (schedule : ℕ → Seat)

/-- Turns from position `t` on, until every batch is finished or nobody did anything for more than
a round. -/
def spin : ℕ → ℕ → ℕ → ℕ → Carousel α β → Option (Ending α β)
  | 0, _, _, _, _ => none
  | fuel + 1, t, streak, idle, r =>
    if r.results.length < batches then
      match r.turn w stages batches (schedule t) with
      | (true, r) => spin fuel (t + 1) 0 idle r
      | (false, r) =>
        if stages + 3 < streak + 1 then some (.stalled (t + 1))
        else spin fuel (t + 1) (streak + 1) (idle + 1) r
    else some (.finished t idle r)

end Runs

section Completion
variable {w : Work α β} {stages batches total : ℕ} {Valid : α → Prop} {first : ℕ → α}
  {r : Carousel α β}

open Carousel

@[simp] theorem length_seats (stages : ℕ) : (seats stages).length = stages + 3 := by
  simp [seats]

theorem nodup_seats (stages : ℕ) : (seats stages).Nodup := by
  have hinj : Function.Injective Seat.transformer := fun i j h => Seat.transformer.inj h
  have htransformers : ((List.range stages).map Seat.transformer).Nodup := List.nodup_range.map hinj
  simp [seats, List.nodup_append, htransformers]

theorem roundRobin_mem (stages t : ℕ) : roundRobin stages t ∈ seats stages := by
  have hlt : t % (stages + 3) < (seats stages).length := by
    rw [length_seats]
    exact Nat.mod_lt _ (Nat.succ_pos _)
  rw [roundRobin, List.getElem?_eq_getElem hlt, Option.getD_some]
  exact List.getElem_mem hlt

theorem exists_roundRobin {seat : Seat} (hseat : seat ∈ seats stages) {t : ℕ} (ht : stages + 3 ≤ t) :
    ∃ j, j < stages + 3 ∧ roundRobin stages (t - 1 - j) = seat := by
  obtain ⟨i, hi, hget⟩ := List.mem_iff_getElem.mp hseat
  rw [length_seats] at hi
  refine ⟨(t - 1 - i) % (stages + 3), Nat.mod_lt _ (Nat.succ_pos _), ?_⟩
  have hdiv := Nat.div_add_mod (t - 1 - i) (stages + 3)
  have hback : t - 1 - (t - 1 - i) % (stages + 3) = i + (stages + 3) * ((t - 1 - i) / (stages + 3)) := by
    omega
  rw [roundRobin, hback, Nat.add_mul_mod_self_left, Nat.mod_eq_of_lt hi,
    List.getElem?_eq_getElem (by rw [length_seats]; exact hi), hget]
  rfl

/-- With items in the ring, round robin finishes every batch and never reports a stall: a process
that has something to do gets its turn within a round. -/
theorem spin_finishes (hlaw : Lawful w Valid first) (hpos : 0 < total) (fuel : ℕ) {t streak idle : ℕ}
    (h : Sound w Valid first stages batches total r) (hle : streak ≤ t) (hround : streak ≤ stages + 3)
    (hidle : ∀ j, j < streak → (r.turn w stages batches (roundRobin stages (t - 1 - j))).1 = false)
    (hfuel : remaining stages batches r * (stages + 4) + (stages + 3 - streak) < fuel) :
    ∃ turns idles r', spin w stages batches (roundRobin stages) fuel t streak idle r =
      some (.finished turns idles r') ∧ Sound w Valid first stages batches total r' ∧
      batches ≤ r'.results.length := by
  induction fuel generalizing t streak idle r with
  | zero => omega
  | succ fuel ih =>
    rw [spin]
    split
    · next hunfinished =>
      have hseat := roundRobin_mem stages t
      -- a whole idle round would mean that nobody has anything to do
      have hshort : streak < stages + 3 := by
        refine Nat.lt_of_le_of_ne hround fun heq => ?_
        have hdone := h.finished_of_idle hpos fun seat hmem => by
          obtain ⟨j, hj, hturn⟩ := exists_roundRobin hmem (heq ▸ hle)
          rw [← hturn]
          exact hidle j (heq ▸ hj)
        omega
      have hnext := h.turn hlaw hseat
      cases hturn : r.turn w stages batches (roundRobin stages t) with
      | mk progressed r' =>
        cases progressed with
        | true =>
          have hprogress := congrArg Prod.fst hturn
          have hless := remaining_lt hseat hprogress
          rw [hturn] at hnext hless
          change remaining stages batches r' < remaining stages batches r at hless
          refine ih hnext (Nat.zero_le _) (Nat.zero_le _) (by omega) ?_
          have hmul := Nat.mul_le_mul_right (stages + 4) (Nat.succ_le_of_lt hless)
          rw [Nat.succ_mul] at hmul
          omega
        | false =>
          obtain rfl : r' = r := (congrArg Prod.snd hturn).symm.trans
            (turn_idle (congrArg Prod.fst hturn))
          have hno : ¬stages + 3 < streak + 1 := by omega
          simp only [if_neg hno]
          refine ih h (Nat.succ_le_succ hle) hshort (fun j hj => ?_) (by omega)
          cases j with
          | zero => exact congrArg Prod.fst hturn
          | succ j =>
            have hback : t + 1 - 1 - (j + 1) = t - 1 - j := by omega
            rw [hback]
            exact hidle j (by omega)
    · next hfinished => exact ⟨t, idle, r, rfl, h, Nat.le_of_not_lt hfinished⟩

/-- When nobody ever has anything to do, a stall is reported after one round and a turn. -/
theorem spin_stalls {schedule : ℕ → Seat} (hunfinished : r.results.length < batches)
    (hidle : ∀ t, (r.turn w stages batches (schedule t)).1 = false) (fuel : ℕ) {t streak idle : ℕ}
    (hround : streak ≤ stages + 3) (hfuel : stages + 3 - streak < fuel) :
    spin w stages batches schedule fuel t streak idle r =
      some (.stalled (t + (stages + 3 - streak) + 1)) := by
  induction fuel generalizing t streak idle with
  | zero => omega
  | succ fuel ih =>
    have hturn : r.turn w stages batches (schedule t) = (false, r) :=
      Prod.ext (hidle t) (turn_idle (hidle t))
    rw [spin, if_pos hunfinished, hturn]
    rcases Nat.eq_or_lt_of_le hround with rfl | hlt
    · simp
    · simp only [if_neg (show ¬stages + 3 < streak + 1 by omega)]
      rw [ih (by omega) (by omega)]
      have hsum : t + 1 + (stages + 3 - (streak + 1)) = t + (stages + 3 - streak) := by omega
      rw [hsum]

end Completion

section Maps
variable {γ : Type*} (f : α → γ)

def Carousel.map (r : Carousel α β) : Carousel γ β :=
  ⟨fun k => (r.chan k).map (Prod.map id f), r.returns.map f, r.pool.map f, r.next, r.results,
    r.messages⟩

def Ending.map : Ending α β → Ending γ β
  | .finished turns idle r => .finished turns idle (r.map f)
  | .stalled turns => .stalled turns

/-- The work on the items is the same through `f`. -/
structure Work.Commutes (w : Work α β) (w' : Work γ β) : Prop where
  fill : ∀ b x, f (w.fill b x) = w'.fill b (f x)
  stage : ∀ i x, f (w.stage i x) = w'.stage i (f x)
  retire : ∀ x, f (w.retire x) = w'.retire (f x)
  result : ∀ x, w.result x = w'.result (f x)

variable {f} {w : Work α β} {w' : Work γ β}

private theorem map_update (chan : ℕ → List (ℕ × α)) (k : ℕ) (queue : List (ℕ × α)) :
    (fun j => (Function.update chan k queue j).map (Prod.map id f)) =
      Function.update (fun j => (chan j).map (Prod.map id f)) k (queue.map (Prod.map id f)) := by
  funext j
  by_cases hj : j = k
  · subst hj
    rw [Function.update_self, Function.update_self]
  · rw [Function.update_of_ne hj, Function.update_of_ne hj]

theorem Carousel.flight_map (r : Carousel α β) (k : ℕ) :
    flight (r.map f).chan k = (flight r.chan k).map (Prod.map id f) := by
  induction k with
  | zero => rfl
  | succ k ih => rw [flight, flight, ih, List.map_append]; rfl

theorem Carousel.Counted.of_map {r : Carousel α β} {stages batches total : ℕ}
    (h : Counted stages batches total (r.map f)) : Counted stages batches total r := by
  have hflight : ∀ k, (flight (r.map f).chan k).length = (flight r.chan k).length := by
    intro k
    rw [flight_map, List.length_map]
  refine ⟨h.next_le, (hflight stages) ▸ h.flight_length, fun k hk b x queue hc => ?_, ?_⟩
  · rw [← hflight k]
    refine h.head k hk b (f x) (queue.map (Prod.map id f)) ?_
    change (r.chan k).map (Prod.map id f) = _
    rw [hc]
    rfl
  · have hcount := h.count
    rw [hflight] at hcount
    simpa only [Carousel.map, List.length_map] using hcount

theorem Carousel.turn_map (hw : w.Commutes f w') (stages batches : ℕ) (r : Carousel α β)
    (seat : Seat) : (r.map f).turn w' stages batches seat =
      ((r.turn w stages batches seat).1, (r.turn w stages batches seat).2.map f) := by
  cases seat with
  | supervisor => rfl
  | sink =>
    cases hc : r.chan stages with
    | nil => simp [turn, map, hc]
    | cons item queue => simp [turn, map, hc, map_update, hw.retire, hw.result]
  | transformer i =>
    cases hc : r.chan i with
    | nil => simp [turn, map, hc]
    | cons item queue => simp [turn, map, hc, map_update, hw.stage]
  | producer =>
    by_cases hlt : r.next < batches
    · cases hp : r.pool ++ r.returns with
      | nil =>
        have hmap : r.pool.map f ++ r.returns.map f = [] := by rw [← List.map_append, hp]; rfl
        simp [turn, map, hlt, hp, hmap]
      | cons x pool =>
        have hmap : r.pool.map f ++ r.returns.map f = f x :: pool.map f := by
          rw [← List.map_append, hp]
          rfl
        simp [turn, map, hlt, hp, hmap, map_update, hw.fill]
    · simp [turn, map, hlt]

theorem spin_map (hw : w.Commutes f w') (stages batches : ℕ) (schedule : ℕ → Seat)
    (fuel t streak idle : ℕ) (r : Carousel α β) :
    spin w' stages batches schedule fuel t streak idle (r.map f) =
      (spin w stages batches schedule fuel t streak idle r).map (Ending.map f) := by
  induction fuel generalizing t streak idle r with
  | zero => rfl
  | succ fuel ih =>
    rw [spin, spin]
    have hlen : (r.map f).results.length = r.results.length := rfl
    rw [hlen]
    split
    · rw [Carousel.turn_map hw]
      cases r.turn w stages batches (schedule t) with
      | mk progressed r' =>
        cases progressed with
        | true => exact ih (t + 1) 0 idle r'
        | false =>
          simp only []
          split
          · rfl
          · exact ih (t + 1) (streak + 1) (idle + 1) r'
    · rfl

end Maps
end Muaddib.RingPipelines
