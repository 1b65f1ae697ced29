import Muaddib.RingPipelines

/-! # How long the ring takes

Round robin moves every item in flight by one queue in a round, downstream first, so that an item
is free again one round after the last queue. The producer begins a batch in every round in which
it has an item: the number begun before each round, and with it the position of every batch at
every turn, has a closed form. -/
namespace Muaddib.RingPipelines
open Carousel

section Begun

/-- The number of batches begun before round `n` if they never ran out: `width` in a row, once in
every `lap` rounds. -/
def paced (lap width n : ℕ) : ℕ := n / lap * width + min (n % lap) width

variable {lap width n : ℕ}

/-- A lap later `width` more are begun. -/
theorem paced_add_lap (hlap : 0 < lap) : paced lap width (n + lap) = paced lap width n + width := by
  rw [paced, paced, Nat.add_div_right _ hlap, Nat.add_mod_right, Nat.succ_mul]
  omega

theorem paced_of_lt (h : n < lap) : paced lap width n = min n width := by
  rw [paced, Nat.div_eq_of_lt h, Nat.mod_eq_of_lt h, Nat.zero_mul, Nat.zero_add]

/-- A round begins one more in the first `width` rounds of a lap. -/
theorem paced_succ (hlap : 0 < lap) (hwidth : width ≤ lap) :
    paced lap width (n + 1) = paced lap width n + if n % lap < width then 1 else 0 := by
  have hmod := Nat.mod_lt n hlap
  by_cases hlast : n % lap + 1 = lap
  · have hdiv : (n + 1) / lap = n / lap + 1 ∧ (n + 1) % lap = 0 := by
      have hn := Nat.div_add_mod n lap
      have hnext : n + 1 = lap * (n / lap + 1) := by
        rw [Nat.mul_succ]
        omega
      rw [hnext, Nat.mul_div_cancel_left _ hlap, Nat.mul_mod_right]
      exact ⟨rfl, rfl⟩
    rw [paced, paced, hdiv.1, hdiv.2, Nat.succ_mul]
    split <;> omega
  · have hdiv : (n + 1) / lap = n / lap ∧ (n + 1) % lap = n % lap + 1 := by
      have hn := Nat.div_add_mod n lap
      have hnext : n + 1 = n % lap + 1 + lap * (n / lap) := by omega
      rw [hnext, Nat.add_mul_div_left _ _ hlap, Nat.add_mul_mod_self_left,
        Nat.div_eq_of_lt (by omega), Nat.mod_eq_of_lt (by omega), Nat.zero_add]
      exact ⟨rfl, rfl⟩
    rw [paced, paced, hdiv.1, hdiv.2]
    split <;> omega

end Begun

section Rounds
variable (stages pool batches : ℕ)

/-- The number of batches begun before round `n`. -/
def begun (n : ℕ) : ℕ := min batches (paced (stages + 1) (min pool (stages + 1)) n)

def lastRound : ℕ :=
  (batches - 1) / min pool (stages + 1) * (stages + 1) + (batches - 1) % min pool (stages + 1)

variable {pool}

@[simp] theorem begun_zero : begun stages pool batches 0 = 0 := by
  simp [begun, paced]

/-- A batch is begun if one is left and an item is free: fewer than `pool` were begun in the rounds
that an item is away. -/
theorem begun_succ (hpool : 0 < pool) (n : ℕ) : begun stages pool batches (n + 1) =
    begun stages pool batches n +
      if begun stages pool batches n < batches ∧
        begun stages pool batches n < pool + begun stages pool batches (n - stages) then 1 else 0 := by
  let width := min pool (stages + 1)
  have hwidth : width ≤ stages + 1 := Nat.min_le_right ..
  have hsucc : paced (stages + 1) width (n + 1) = paced (stages + 1) width n +
      if n % (stages + 1) < width then 1 else 0 := paced_succ (Nat.succ_pos _) hwidth
  have hmod := Nat.mod_lt n (Nat.succ_pos stages)
  -- what is away when round `n` begins its batch
  have haway : paced (stages + 1) width (n + 1) = paced (stages + 1) width (n - stages) + width ∨
      n < stages ∧ paced (stages + 1) width n = min n width ∧
        paced (stages + 1) width (n - stages) = 0 ∧ n % (stages + 1) = n := by
    rcases Nat.lt_or_ge n stages with hlt | hge
    · refine Or.inr ⟨hlt, paced_of_lt (by omega), ?_, Nat.mod_eq_of_lt (by omega)⟩
      rw [Nat.sub_eq_zero_of_le hlt.le]
      simp [paced]
    · have hback : n + 1 = n - stages + (stages + 1) := by omega
      rw [hback]
      exact Or.inl (paced_add_lap (Nat.succ_pos _))
  have hfree : width = pool ∨ width = stages + 1 := by
    change min pool (stages + 1) = pool ∨ min pool (stages + 1) = stages + 1
    omega
  change min batches (paced (stages + 1) width (n + 1)) = min batches (paced (stages + 1) width n) +
    if min batches (paced (stages + 1) width n) < batches ∧
      min batches (paced (stages + 1) width n) <
        pool + min batches (paced (stages + 1) width (n - stages)) then 1 else 0
  have hwidth_pool : width ≤ pool := Nat.min_le_left ..
  generalize paced (stages + 1) width (n + 1) = after at *
  generalize paced (stages + 1) width n = before at *
  generalize paced (stages + 1) width (n - stages) = earlier at *
  generalize n % (stages + 1) = slot at *
  split at hsucc <;> split <;> omega

theorem begun_lastRound (hpool : 0 < pool) (hbatches : 0 < batches) :
    begun stages pool batches (lastRound stages pool batches) = batches - 1 ∧
      begun stages pool batches (lastRound stages pool batches + 1) = batches := by
  let width := min pool (stages + 1)
  have hpos : 0 < width := by
    change 0 < min pool (stages + 1)
    omega
  have hwidth : width ≤ stages + 1 := Nat.min_le_right ..
  have hmod := Nat.mod_lt (batches - 1) hpos
  have hround : lastRound stages pool batches =
      (batches - 1) % width + (stages + 1) * ((batches - 1) / width) := by
    rw [lastRound, Nat.add_comm, Nat.mul_comm]
  have hslot : lastRound stages pool batches % (stages + 1) = (batches - 1) % width := by
    rw [hround, Nat.add_mul_mod_self_left, Nat.mod_eq_of_lt (by omega)]
  have hlap : lastRound stages pool batches / (stages + 1) = (batches - 1) / width := by
    rw [hround, Nat.add_mul_div_left _ _ (Nat.succ_pos _), Nat.div_eq_of_lt (by omega), Nat.zero_add]
  have hpaced : paced (stages + 1) width (lastRound stages pool batches) = batches - 1 := by
    rw [paced, hslot, hlap, Nat.min_eq_left hmod.le, Nat.mul_comm, Nat.div_add_mod]
  have hnext : paced (stages + 1) width (lastRound stages pool batches + 1) = batches := by
    rw [paced_succ (Nat.succ_pos _) hwidth, hpaced, hslot, if_pos hmod]
    omega
  constructor
  · change min batches (paced (stages + 1) width _) = _
    rw [hpaced]
    omega
  · change min batches (paced (stages + 1) width _) = _
    rw [hnext, Nat.min_self]

theorem begun_sub_succ (hpool : 0 < pool) (n k : ℕ) :
    begun stages pool batches (n - (k + 1)) ≤ begun stages pool batches (n - k) ∧
      begun stages pool batches (n - k) ≤ begun stages pool batches (n - (k + 1)) + 1 := by
  rcases Nat.lt_or_ge k n with hlt | hge
  · have hsucc := begun_succ stages batches hpool (n - (k + 1))
    have hround : n - k = n - (k + 1) + 1 := by omega
    rw [hround, hsucc]
    split <;> omega
  · have hzero : n - k = n - (k + 1) := by omega
    rw [hzero]
    omega

end Rounds

/-- The ring before round `n`: every batch in flight is in the queue of its age. -/
structure Timed (stages pool batches n : ℕ) (r : Carousel α β) : Prop where
  next : r.next = begun stages pool batches n
  done : r.results.length = begun stages pool batches (n - (stages + 1))
  queues : ∀ k, k ≤ stages → (r.chan k).length =
    begun stages pool batches (n - k) - begun stages pool batches (n - (k + 1))
  returns : r.returns = []
  free : r.pool.length + begun stages pool batches n =
    pool + begun stages pool batches (n - (stages + 1))

/-- The ring within round `n`, after the turns of the sink and of the stages from `i` on. -/
structure Midway (stages pool batches n i : ℕ) (r : Carousel α β) : Prop where
  next : r.next = begun stages pool batches n
  done : r.results.length = begun stages pool batches (n - stages)
  ahead : ∀ k, i < k → k ≤ stages → (r.chan k).length =
    begun stages pool batches (n + 1 - k) - begun stages pool batches (n - k)
  here : r.chan i = []
  behind : ∀ k, k < i → (r.chan k).length =
    begun stages pool batches (n - k) - begun stages pool batches (n - (k + 1))
  free : (r.pool ++ r.returns).length + begun stages pool batches n =
    pool + begun stages pool batches (n - stages)

section Round
variable {w : Work α β} {stages pool batches n i : ℕ} {r : Carousel α β}

theorem timed_start {items : List α} :
    Timed stages items.length batches 0 (start items : Carousel α β) := by
  refine ⟨(begun_zero ..).symm, ?_, ?_, rfl, ?_⟩
  · rw [Nat.zero_sub, begun_zero]
    rfl
  · intro k _
    rw [Nat.zero_sub, Nat.zero_sub, Nat.sub_self]
    rfl
  · rw [Nat.zero_sub]
    rfl

theorem Timed.sink (h : Timed stages pool batches n r) (hpool : 0 < pool) :
    Midway stages pool batches n stages (r.turn w stages batches .sink).2 := by
  have hqueue := h.queues stages le_rfl
  obtain ⟨hmono, hone⟩ := begun_sub_succ stages batches hpool n stages
  have hdone := h.done
  have hfree := h.free
  cases hc : r.chan stages with
  | nil =>
    rw [hc, List.length_nil] at hqueue
    simp only [turn, hc]
    refine ⟨h.next, by omega, ?_, hc, fun k hk => h.queues k hk.le, ?_⟩
    · intro k hlt hle
      omega
    · rw [h.returns, List.append_nil]
      omega
  | cons item queue =>
    obtain ⟨b, x⟩ := item
    rw [hc, List.length_cons] at hqueue
    have hempty : queue = [] := List.length_eq_zero_iff.mp (by omega)
    simp only [turn, hc]
    refine ⟨h.next, ?_, ?_, ?_, ?_, ?_⟩
    · rw [List.length_append, List.length_singleton]
      omega
    · intro k hlt hle
      omega
    · dsimp only
      rw [Function.update_self, hempty]
    · intro k hk
      dsimp only
      rw [Function.update_of_ne hk.ne]
      exact h.queues k hk.le
    · dsimp only
      rw [h.returns, List.nil_append, List.length_append, List.length_singleton]
      omega

/-- A stage passes its batch on into the queue that has just been emptied. -/
theorem Midway.stage (h : Midway stages pool batches n (i + 1) r) (hpool : 0 < pool) :
    Midway stages pool batches n i (r.turn w stages batches (.transformer i)).2 := by
  have hqueue := h.behind i (Nat.lt_succ_self i)
  obtain ⟨hmono, hone⟩ := begun_sub_succ stages batches hpool n i
  have hround : n + 1 - (i + 1) = n - i := by omega
  cases hc : r.chan i with
  | nil =>
    rw [hc, List.length_nil] at hqueue
    simp only [turn, hc]
    refine ⟨h.next, h.done, ?_, hc, fun k hk => h.behind k (by omega), h.free⟩
    intro k hlt hle
    rcases Nat.eq_or_lt_of_le (Nat.succ_le_of_lt hlt) with heq | hlt
    · obtain rfl : k = i + 1 := heq.symm
      rw [h.here, hround, List.length_nil]
      omega
    · exact h.ahead k hlt hle
  | cons item queue =>
    obtain ⟨b, x⟩ := item
    rw [hc, List.length_cons] at hqueue
    have hempty : queue = [] := List.length_eq_zero_iff.mp (by omega)
    simp only [turn, hc]
    refine ⟨h.next, h.done, ?_, ?_, ?_, h.free⟩
    · intro k hlt hle
      dsimp only
      rcases Nat.eq_or_lt_of_le (Nat.succ_le_of_lt hlt) with heq | hlt
      · obtain rfl : k = i + 1 := heq.symm
        rw [Function.update_self, h.here, hround, List.nil_append, List.length_singleton]
        omega
      · rw [Function.update_of_ne (by omega), Function.update_of_ne (by omega)]
        exact h.ahead k hlt hle
    · dsimp only
      rw [Function.update_of_ne (by omega), Function.update_self, hempty]
    · intro k hk
      dsimp only
      rw [Function.update_of_ne (by omega), Function.update_of_ne (by omega)]
      exact h.behind k (by omega)

/-- The producer begins a batch if one is left and an item is free. -/
theorem Midway.producer (h : Midway stages pool batches n 0 r) (hpool : 0 < pool) :
    Timed stages pool batches (n + 1) (r.turn w stages batches .producer).2 := by
  have hsucc := begun_succ stages batches hpool n
  have hdone := h.done
  have hfree := h.free
  have hnext := h.next
  have hlap : n + 1 - (stages + 1) = n - stages := by omega
  have hqueues : ∀ k, 0 < k → k ≤ stages → (r.chan k).length =
      begun stages pool batches (n + 1 - k) - begun stages pool batches (n + 1 - (k + 1)) := by
    intro k hpos hle
    rw [h.ahead k hpos hle, Nat.add_sub_add_right]
  rw [turn]
  split
  · next hlt =>
    cases hp : r.pool ++ r.returns with
    | nil =>
      rw [hp, List.length_nil] at hfree
      obtain ⟨-, hreturns⟩ := List.append_eq_nil_iff.mp hp
      rw [if_neg (by omega)] at hsucc
      refine ⟨?_, ?_, ?_, hreturns, ?_⟩
      · change r.next = _
        omega
      · rw [hlap]
        exact hdone
      · intro k hk
        rcases Nat.eq_zero_or_pos k with rfl | hpos
        · change (r.chan 0).length = begun stages pool batches (n + 1) - begun stages pool batches n
          rw [h.here, hsucc, Nat.add_zero, Nat.sub_self]
          rfl
        · exact hqueues k hpos hk
      · rw [(List.append_eq_nil_iff.mp hp).1, List.length_nil, hlap]
        omega
    | cons x pool' =>
      dsimp only
      rw [hp, List.length_cons] at hfree
      rw [if_pos (by omega)] at hsucc
      refine ⟨?_, ?_, ?_, rfl, ?_⟩
      · change r.next + 1 = _
        omega
      · rw [hlap]
        exact hdone
      · intro k hk
        rcases Nat.eq_zero_or_pos k with rfl | hpos
        · dsimp only
          rw [Function.update_self, h.here, List.nil_append, List.length_singleton, Nat.sub_zero,
            Nat.add_sub_cancel, hsucc, Nat.add_sub_cancel_left]
        · dsimp only
          rw [Function.update_of_ne (by omega)]
          exact hqueues k hpos hk
      · rw [hlap]
        change pool'.length + _ = _
        omega
  · next hge =>
    rw [if_neg (by omega)] at hsucc
    refine ⟨?_, ?_, ?_, rfl, ?_⟩
    · change r.next = _
      omega
    · rw [hlap]
      exact hdone
    · intro k hk
      rcases Nat.eq_zero_or_pos k with rfl | hpos
      · change (r.chan 0).length = begun stages pool batches (n + 1) - begun stages pool batches n
        rw [h.here, hsucc, Nat.add_zero, Nat.sub_self]
        rfl
      · exact hqueues k hpos hk
    · rw [hlap]
      change (r.pool ++ r.returns).length + _ = _
      omega

end Round

section Turns
variable (w : Work α β) (stages batches : ℕ) (schedule : ℕ → Seat)

/-- The ring after the turns of the positions from `t` on. -/
def afterTurns (t : ℕ) (r : Carousel α β) : ℕ → Carousel α β
  | 0 => r
  | m + 1 => ((afterTurns t r m).turn w stages batches (schedule (t + m))).2

variable {w stages batches schedule} {r r' : Carousel α β} {t m pool : ℕ}

theorem afterTurns_succ (t : ℕ) (r : Carousel α β) (m : ℕ) :
    afterTurns w stages batches schedule t r (m + 1) =
      afterTurns w stages batches schedule (t + 1) (r.turn w stages batches (schedule t)).2 m := by
  induction m with
  | zero => rfl
  | succ m ih =>
    rw [afterTurns, ih, afterTurns]
    have hposition : t + (m + 1) = t + 1 + m := by omega
    rw [hposition]

theorem results_le_turn (r : Carousel α β) (seat : Seat) :
    r.results.length ≤ (r.turn w stages batches seat).2.results.length := by
  cases seat with
  | supervisor => exact le_rfl
  | sink =>
    rw [turn]
    split
    · exact le_rfl
    · simp
  | transformer i =>
    rw [turn]
    split <;> exact le_rfl
  | producer =>
    rw [turn]
    split
    · split <;> exact le_rfl
    · exact le_rfl

theorem results_mono (t : ℕ) (r : Carousel α β) : Monotone fun m =>
    (afterTurns w stages batches schedule t r m).results.length := by
  apply monotone_nat_of_le_succ
  intro m
  exact results_le_turn ..

/-- A run that finished stopped at the first turn after which every batch was done. -/
theorem spin_finished (fuel : ℕ) {streak idle turns idles : ℕ}
    (h : spin w stages batches schedule fuel t streak idle r = some (.finished turns idles r')) :
    ∃ m, turns = t + m ∧ r' = afterTurns w stages batches schedule t r m ∧
      batches ≤ r'.results.length ∧
      ∀ j, j < m → (afterTurns w stages batches schedule t r j).results.length < batches := by
  induction fuel generalizing t streak idle r with
  | zero => cases h
  | succ fuel ih =>
    rw [spin] at h
    split at h
    · next hunfinished =>
      have hnext : ∃ streak idle, spin w stages batches schedule fuel (t + 1) streak idle
          (r.turn w stages batches (schedule t)).2 = some (.finished turns idles r') := by
        split at h
        · next r₁ hturn => exact ⟨0, idle, by rw [hturn]; exact h⟩
        · next r₁ hturn =>
          split at h
          · cases h
          · exact ⟨streak + 1, idle + 1, by rw [hturn]; exact h⟩
      obtain ⟨streak, idle, hspin⟩ := hnext
      obtain ⟨m, hturns, hring, hdone, hbefore⟩ := ih hspin
      refine ⟨m + 1, by omega, by rw [hring, afterTurns_succ], hdone, ?_⟩
      intro j hj
      cases j with
      | zero => exact hunfinished
      | succ j =>
        rw [afterTurns_succ]
        exact hbefore j (by omega)
    · next hfinished =>
      obtain ⟨rfl, -, rfl⟩ := Ending.finished.inj (Option.some.inj h)
      refine ⟨0, rfl, rfl, Nat.le_of_not_lt hfinished, ?_⟩
      intro j hj
      omega

theorem roundRobin_round (n : ℕ) {j : ℕ} (hj : j < stages + 3) :
    roundRobin stages ((stages + 3) * n + j) = ((seats stages)[j]?).getD .supervisor := by
  rw [roundRobin, Nat.mul_add_mod_self_left, Nat.mod_eq_of_lt hj]

theorem seats_transformer {i : ℕ} (hi : i < stages) :
    (seats stages)[stages + 1 - i]? = some (.transformer i) := by
  obtain ⟨j, hj⟩ : ∃ j, stages + 1 - i = j + 2 := ⟨stages - 1 - i, by omega⟩
  have hindex : stages - 1 - j = i := by omega
  rw [hj]
  simp only [seats, List.getElem?_cons_succ]
  rw [List.getElem?_append_left (by simp; omega), List.getElem?_map,
    List.getElem?_reverse (by simp; omega), List.length_range, hindex, List.getElem?_range hi,
    Option.map_some]

theorem seats_producer : (seats stages)[stages + 2]? = some .producer := by
  simp [seats]

/-- The ring at every position of round `n`, from its start on. -/
theorem afterTurns_round (hpool : 0 < pool) {n : ℕ}
    (h : Timed stages pool batches n
      (afterTurns w stages batches (roundRobin stages) 0 r ((stages + 3) * n))) :
    (∀ j, j ≤ stages → Midway stages pool batches n (stages - j)
      (afterTurns w stages batches (roundRobin stages) 0 r ((stages + 3) * n + (j + 2)))) ∧
    Timed stages pool batches (n + 1)
      (afterTurns w stages batches (roundRobin stages) 0 r ((stages + 3) * (n + 1))) := by
  have hturn (j : ℕ) (hj : j < stages + 3) :
      afterTurns w stages batches (roundRobin stages) 0 r ((stages + 3) * n + (j + 1)) =
        ((afterTurns w stages batches (roundRobin stages) 0 r ((stages + 3) * n + j)).turn w stages
          batches (((seats stages)[j]?).getD .supervisor)).2 := by
    rw [← Nat.add_assoc, afterTurns, Nat.zero_add, roundRobin_round n hj]
  have hmidway : ∀ j, j ≤ stages → Midway stages pool batches n (stages - j)
      (afterTurns w stages batches (roundRobin stages) 0 r ((stages + 3) * n + (j + 2))) := by
    intro j hj
    induction j with
    | zero =>
      rw [hturn 1 (by omega), hturn 0 (by omega)]
      exact h.sink hpool
    | succ j ih =>
      have hnext : stages - j = stages - (j + 1) + 1 := by omega
      have hindex : stages + 1 - (stages - (j + 1)) = j + 2 := by omega
      have hseat : (seats stages)[j + 2]? = some (.transformer (stages - (j + 1))) := by
        rw [← hindex]
        exact seats_transformer (by omega)
      have hbefore := ih (by omega)
      rw [hnext] at hbefore
      have hposition : j + 1 + 2 = j + 2 + 1 := by omega
      rw [hposition, hturn (j + 2) (by omega), hseat]
      exact hbefore.stage hpool
  refine ⟨hmidway, ?_⟩
  have hlast := hmidway stages le_rfl
  rw [Nat.sub_self] at hlast
  rw [Nat.mul_succ, hturn (stages + 2) (by omega), seats_producer]
  exact hlast.producer hpool

theorem afterTurns_timed {items : List α} (hpool : 0 < items.length) (n : ℕ) :
    Timed stages items.length batches n
      (afterTurns w stages batches (roundRobin stages) 0 (start items) ((stages + 3) * n)) := by
  induction n with
  | zero => exact timed_start
  | succ n ih => exact (afterTurns_round hpool ih).2

/-- A run that finishes takes exactly the rounds up to the last batch and a lap more, and the first
two turns of the round after. -/
theorem spin_turns_eq {items : List α} (hpool : 0 < items.length) (hbatches : 0 < batches)
    {fuel turns idles : ℕ} (h : spin w stages batches (roundRobin stages) fuel 0 0 0 (start items) =
      some (.finished turns idles r')) :
    turns = (stages + 3) * (lastRound stages items.length batches + stages + 1) + 2 := by
  obtain ⟨m, hturns, rfl, hdone, hbefore⟩ := spin_finished fuel h
  obtain ⟨hlast, hall⟩ := begun_lastRound stages batches hpool hbatches
  let n := lastRound stages items.length batches + stages + 1
  have htimed : Timed stages items.length batches n
      (afterTurns w stages batches (roundRobin stages) 0 (start items) ((stages + 3) * n)) :=
    afterTurns_timed hpool n
  -- the sink's turn of round `n` finishes the last batch
  have hsink := (afterTurns_round hpool htimed).1 0 (Nat.zero_le _)
  have hafter := hsink.done
  have hround : n - stages = lastRound stages items.length batches + 1 := by omega
  rw [hround, hall] at hafter
  -- before that turn it was still in flight
  have hone : (afterTurns w stages batches (roundRobin stages) 0 (start items)
      ((stages + 3) * n + 1)).results.length = batches - 1 := by
    rw [afterTurns, Nat.zero_add, ← Nat.add_zero ((stages + 3) * n), roundRobin_round n (by omega)]
    have hstart := htimed.done
    have hlap : n - (stages + 1) = lastRound stages items.length batches := by omega
    rw [hlap, hlast] at hstart
    exact hstart
  have hmono : Monotone fun m =>
      (afterTurns w stages batches (roundRobin stages) 0 (start items) m).results.length :=
    results_mono 0 (start items)
  change turns = (stages + 3) * n + 2
  rcases Nat.lt_trichotomy m ((stages + 3) * n + 2) with hlt | heq | hgt
  · have hle := hmono (show m ≤ (stages + 3) * n + 1 by omega)
    dsimp only at hle
    omega
  · omega
  · have hearly := hbefore _ hgt
    rw [Nat.zero_add] at hafter
    omega

/-- Every step of a batch is a message but the last, when its item is taken back. -/
def Posted (stages : ℕ) (r : Carousel α β) : Prop :=
  r.messages + load stages r.chan stages + r.results.length = (stages + 3) * r.next

theorem posted_start (items : List α) : Posted stages (start items : Carousel α β) := by
  have hload : ∀ k, load stages (start items : Carousel α β).chan k = 0 := by
    intro k
    induction k with
    | zero => rfl
    | succ k ih => rw [load, ih]; rfl
  rw [Posted, hload]
  rfl

theorem Posted.turn (h : Posted stages r) {seat : Seat} (hseat : seat ∈ seats stages) :
    Posted stages (r.turn w stages batches seat).2 := by
  unfold Posted at h ⊢
  cases seat with
  | supervisor => exact h
  | sink =>
    cases hc : r.chan stages with
    | nil => simpa only [Carousel.turn, hc] using h
    | cons item queue =>
      have htake : load stages r.chan stages = _ := load_take hc
      simp only [Carousel.turn, hc, List.length_append, List.length_singleton]
      omega
  | transformer i =>
    have hi : i < stages := by simpa [seats] using hseat
    cases hc : r.chan i with
    | nil => simpa only [Carousel.turn, hc] using h
    | cons item queue =>
      obtain ⟨b, x⟩ := item
      have hstage : load stages r.chan stages = _ := load_stage (y := w.stage i x) hc hi le_rfl
      simp only [Carousel.turn, hc]
      omega
  | producer =>
    rw [Carousel.turn]
    split
    · cases hp : r.pool ++ r.returns with
      | nil => exact h
      | cons x pool =>
        simp only [load_produce, Nat.mul_succ]
        omega
    · exact h

theorem posted_afterTurns (h : Posted stages r) (t m : ℕ) :
    Posted stages (afterTurns w stages batches (roundRobin stages) t r m) := by
  induction m with
  | zero => exact h
  | succ m ih => exact ih.turn (roundRobin_mem ..)

theorem load_of_flight {chan : ℕ → List (ℕ × α)} {k : ℕ} (h : flight chan k = []) :
    load stages chan k = 0 := by
  induction k with
  | zero =>
    rw [flight] at h
    rw [load, h, List.length_nil, Nat.mul_zero]
  | succ k ih =>
    rw [flight, List.append_eq_nil_iff] at h
    rw [load, h.1, ih h.2, List.length_nil, Nat.mul_zero]

/-- When every batch is done each has passed once through every hand. -/
theorem Posted.messages_eq {total : ℕ} (h : Posted stages r) (hcount : Counted stages batches total r)
    (hdone : batches ≤ r.results.length) : r.messages = batches * (stages + 2) := by
  have hflight := hcount.flight_length
  have hnext := hcount.next_le
  have hempty : flight r.chan stages = [] := List.length_eq_zero_iff.mp (by omega)
  rw [Posted, load_of_flight hempty] at h
  have hall : r.next = batches ∧ r.results.length = batches := by
    rw [hempty, List.length_nil] at hflight
    omega
  rw [hall.1, hall.2] at h
  rw [Nat.mul_comm]
  have hmul : (stages + 3) * batches = (stages + 2) * batches + batches := Nat.succ_mul ..
  omega

end Turns
end Muaddib.RingPipelines
