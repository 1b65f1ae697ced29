import Muaddib.PipelineOutcomes

/-! # What the stamps of a trace tell

From the stamps in the report alone one can read off the way of every batch, and that its region had
come back from the batch before it. -/
namespace Muaddib
open RingPipelines KernelPipeline Carousel

def hops (stages : ℕ) : List (Role × Action) :=
  (.producer, .send) :: ((List.range stages).map Role.transformer ++ [Role.sink]).flatMap fun role =>
    [(role, .receive), (role, .send)]

/-- The event in which `role` sent or received a batch is the only one of its kind. -/
def SoleEvent (trace : List TraceEvent) (hop : Role × Action) (batch : UInt64) (s : EventStamp) :
    Prop :=
  (trace.filter fun e => e.role = hop.1 ∧ e.action = hop.2 ∧ e.batch = batch) =
    [⟨hop.1, hop.2, batch, s⟩]

/-- The send onto queue `k`. -/
def sendHop (stages : ℕ) : ℕ → Role × Action
  | 0 => (.producer, .send)
  | k + 1 => (roleAt stages k, .send)

theorem hops_eq (stages : ℕ) : hops stages = sendHop stages 0 ::
    (List.range (stages + 1)).flatMap fun k =>
      [(roleAt stages k, .receive), sendHop stages (k + 1)] := by
  have hroles : (List.range stages).map Role.transformer ++ [Role.sink] =
      (List.range (stages + 1)).map (roleAt stages) := by
    rw [List.range_succ, List.map_append]
    congr 1
    · apply List.map_congr_left
      intro k hk
      rw [roleAt, if_pos (List.mem_range.mp hk)]
    · simp [roleAt]
  rw [hops, hroles, List.flatMap_map]
  rfl

theorem isChain_alternating {α : Type*} {R : α → α → Prop} (a c : ℕ → α) (n k : ℕ)
    (harrive : ∀ j, j < k + n → R (a j) (c j)) (hdepart : ∀ j, j < k + n → R (c j) (a (j + 1))) :
    (a k :: (List.range' k n).flatMap fun j => [c j, a (j + 1)]).IsChain R := by
  induction n generalizing k with
  | zero => exact List.isChain_singleton _
  | succ n ih =>
    have hrest := ih (k + 1) (fun j hj => harrive j (by omega)) (fun j hj => hdepart j (by omega))
    rw [List.range'_succ, List.flatMap_cons]
    apply List.isChain_cons_cons.mpr
    refine ⟨harrive k (by omega), ?_⟩
    apply List.isChain_cons_cons.mpr
    exact ⟨hdepart k (by omega), hrest⟩

def Stamps.along (st : Stamps) (stages : ℕ) : Role × Action → List EventStamp
  | (.supervisor, _) => []
  | (.producer, _) => st.sent 0
  | (.transformer k, .receive) => st.received k
  | (.transformer k, .send) => st.sent (k + 1)
  | (.sink, .receive) => st.received stages
  | (.sink, .send) => st.sent (stages + 1)

section Hops
variable {config : PipelineConfig} {stages pool k b : ℕ} {st : Stamps} {trace : List TraceEvent}
  {r : Carousel Token UInt64} {hop : Role × Action}

theorem Stamps.along_receive (st : Stamps) (hk : k ≤ stages) :
    st.along stages (roleAt stages k, .receive) = st.received k := by
  rw [roleAt]
  split
  · rfl
  · next hge => rw [show k = stages by omega]; rfl

theorem Stamps.along_sendHop (st : Stamps) (hk : k ≤ stages + 1) :
    st.along stages (sendHop stages k) = st.sent k := by
  cases k with
  | zero => rfl
  | succ k =>
    rw [sendHop, roleAt]
    split
    · rfl
    · next hge => rw [show k = stages by omega]; rfl

theorem Written.events (h : Written stages trace st) (hhop : hop ∈ hops stages) :
    eventsOf trace hop.1 hop.2 = numbered hop.1 hop.2 (st.along stages hop) := by
  rw [hops_eq, List.mem_cons, List.mem_flatMap] at hhop
  rcases hhop with rfl | ⟨k, hk, hhop⟩
  · exact h.emits
  · have hle : k ≤ stages := Nat.le_of_lt_succ (List.mem_range.mp hk)
    rcases List.mem_pair.mp hhop with rfl | rfl
    · rw [Stamps.along_receive st hle]
      exact h.receives k hle
    · rw [Stamps.along_sendHop st (Nat.succ_le_succ hle)]
      exact h.sends k hle

/-- When every queue was passed by as many items, every kind of event has as many stamps. -/
theorem Chained.length_along (h : Chained stages pool r st)
    (htaken : ∀ k, k ≤ stages → r.taken k = r.next) (hhop : hop ∈ hops stages) :
    (st.along stages hop).length = r.next := by
  rw [hops_eq, List.mem_cons, List.mem_flatMap] at hhop
  rcases hhop with rfl | ⟨k, hk, hhop⟩
  · exact h.begun
  · have hle : k ≤ stages := Nat.le_of_lt_succ (List.mem_range.mp hk)
    rcases List.mem_pair.mp hhop with rfl | rfl
    · rw [Stamps.along_receive st hle, h.taken k hle, htaken k hle]
    · rw [Stamps.along_sendHop st (Nat.succ_le_succ hle), h.passed k hle, htaken k hle]

theorem Chained.isChain (h : Chained stages pool r st) :
    (hops stages).IsChain fun hop hop' => Precede 0 (st.along stages hop) (st.along stages hop') := by
  rw [hops_eq, List.range_eq_range']
  apply isChain_alternating (sendHop stages) fun k => (roleAt stages k, .receive)
  · intro k hk
    rw [Stamps.along_sendHop st (by omega), Stamps.along_receive st (by omega)]
    exact h.arrive k (by omega)
  · intro k hk
    rw [Stamps.along_sendHop st (by omega), Stamps.along_receive st (by omega)]
    exact h.depart k (by omega)

end Hops

section Batches
variable {b : ℕ}

theorem filter_numbered (role : Role) (action : Action) (l : List EventStamp) (hlen : l.length < 2 ^ 64) (hb : b < 2 ^ 64) :
    (numbered role action l).filter (fun e => e.batch = UInt64.ofNat b) =
      l[b]?.toList.map fun s => ⟨role, action, UInt64.ofNat b, s⟩ := by
  induction l using List.reverseRecOn with
  | nil => rfl
  | append_singleton l s ih =>
    rw [List.length_append, List.length_singleton] at hlen
    rw [numbered_concat, List.filter_append, ih (by omega)]
    rcases Nat.lt_trichotomy b l.length with hlt | rfl | hgt
    · have hne : UInt64.ofNat l.length ≠ UInt64.ofNat b := by
        intro heq
        have := MachineCounters.ofNat_inj (by omega) hb heq
        omega
      rw [List.getElem?_append_left hlt]
      simp [hne]
    · rw [List.getElem?_concat_length, List.getElem?_eq_none le_rfl]
      simp
    · have hne : UInt64.ofNat l.length ≠ UInt64.ofNat b := by
        intro heq
        have := MachineCounters.ofNat_inj (by omega) hb heq
        omega
      rw [List.getElem?_eq_none (by omega), List.getElem?_eq_none (by simp; omega)]
      simp [hne]

theorem soleEvent_of {trace : List TraceEvent} {hop : Role × Action} {l : List EventStamp}
    {s : EventStamp} (hevents : eventsOf trace hop.1 hop.2 = numbered hop.1 hop.2 l)
    (hlen : l.length < 2 ^ 64) (hs : l[b]? = some s) :
    SoleEvent trace hop (UInt64.ofNat b) s := by
  have hb := (List.getElem?_eq_some_iff.mp hs).1
  have hfilter := filter_numbered hop.1 hop.2 l hlen (hb.trans hlen)
  rw [← hevents, eventsOf, List.filter_filter, hs] at hfilter
  refine Eq.trans ?_ hfilter
  apply List.filter_congr
  intro e _
  simp only [Bool.decide_and, Bool.and_comm, Bool.and_left_comm, Bool.and_assoc]

end Batches

section Reports
variable {config : PipelineConfig} {report : PipelineReport} {r : Carousel Token UInt64}

theorem Finished.taken (hfits : config.Fits) (h : Finished config report r) :
    r.next = config.batches.toNat ∧ ∀ k, k ≤ config.stages → r.taken k = r.next := by
  obtain ⟨calls, streak, kp, t, idle, -, hunderway⟩ := h.underway
  have hb := hunderway.inBounds hfits
  have hnext := hb.next_le
  have hdone := hb.done_le
  have hall := h.all_done
  refine ⟨by omega, fun k hk => ?_⟩
  have hflight := hb.counted.flight_length
  have hmono := length_flight_mono r.chan hk
  unfold Carousel.taken
  omega

/-- Between two turns no more batches have been sent and not returned than there are regions. -/
theorem Between.in_flight (hfits : config.Fits) (htrace : config.trace = true) {calls : List Call}
    {streak : UInt64} {kp : KernelPipeline} (h : Between config calls streak kp report) :
    (eventsOf report.trace .producer .send).length ≤
      (eventsOf report.trace .sink .send).length + config.pool := by
  obtain ⟨t, idle, r, hunderway⟩ := h.underway hfits
  obtain ⟨st, hst⟩ := hunderway.traced htrace
  have hcounted := (hunderway.inBounds hfits).counted
  have hlast : roleAt config.stages config.stages = .sink := by simp [roleAt]
  have hsends := hst.written.sends config.stages le_rfl
  rw [hlast] at hsends
  rw [hst.written.emits, hsends, numbered, numbered, List.length_mapIdx, List.length_mapIdx,
    hst.chained.begun, hst.chained.passed _ le_rfl, hcounted.taken_stages]
  have hflight := hcounted.flight_length
  have hcount := hcounted.count
  omega

/-- Every batch has one event at every hop, each before the next, and the batch that reuses its
region is sent after it was returned. -/
theorem stamps_recover_causal_structure (config : PipelineConfig) (hfits : config.Fits)
    (htrace : config.trace = true) (hpool : 1 ≤ config.pool) :
    (config.Allocates → ∃ report, config.Returns (.ok report)) ∧
    (∀ report, config.Returns (.ok report) →
      (∀ b, b < config.batches.toNat → ∃ stamp : Role × Action → EventStamp,
        (∀ hop ∈ hops config.stages, SoleEvent report.trace hop (UInt64.ofNat b) (stamp hop)) ∧
        (hops config.stages).IsChain fun hop hop' =>
          (stamp hop).happenedBefore (stamp hop') = true) ∧
      ∀ b, b + config.pool < config.batches.toNat → ∃ s s',
        SoleEvent report.trace (.sink, .send) (UInt64.ofNat b) s ∧
        SoleEvent report.trace (.producer, .send) (UInt64.ofNat (b + config.pool)) s' ∧
        s.happenedBefore s' = true) ∧
    ∀ calls streak kp report, Between config calls streak kp report →
      (eventsOf report.trace .producer .send).length ≤
        (eventsOf report.trace .sink .send).length + config.pool := by
  refine ⟨fun hallocates => ?_, fun report' hreturns' => ?_, fun calls streak kp report h =>
    Between.in_flight hfits htrace h⟩
  · obtain ⟨report, -, hreturns, -⟩ := run_finishes hfits hallocates (Or.inr hpool)
    exact ⟨report, hreturns⟩
  obtain ⟨report, r, hreturns, hfinished⟩ :=
    run_finishes hfits hreturns'.allocates (Or.inr hpool)
  obtain rfl := Except.ok.inj (hreturns.unique hreturns')
  obtain ⟨hnext, htaken⟩ := hfinished.taken hfits
  obtain ⟨calls, streak, kp, t, idle, -, hunderway⟩ := hfinished.underway
  obtain ⟨st, hst⟩ := hunderway.traced htrace
  have hlen : ∀ hop ∈ hops config.stages,
      (st.along config.stages hop).length = config.batches.toNat := by
    intro hop hhop
    rw [hst.chained.length_along htaken hhop, hnext]
  have hsome : ∀ b, b < config.batches.toNat → ∀ hop ∈ hops config.stages,
      ∃ s, (st.along config.stages hop)[b]? = some s := by
    intro b hb hop hhop
    exact ⟨_, List.getElem?_eq_getElem ((hlen hop hhop).symm ▸ hb)⟩
  have hsole : ∀ b s, ∀ hop ∈ hops config.stages, (st.along config.stages hop)[b]? = some s →
      SoleEvent report.trace hop (UInt64.ofNat b) s := by
    intro b s hop hhop hs
    exact soleEvent_of (hst.written.events hhop)
      ((hlen hop hhop).symm ▸ config.batches.toNat_lt) hs
  have hfirst : (.producer, .send) ∈ hops config.stages := List.mem_cons_self
  have hlast : (.sink, .send) ∈ hops config.stages := by simp [hops]
  refine ⟨fun b hb => ?_, fun b hb => ?_⟩
  · obtain ⟨s₀, hs₀⟩ := hsome b hb _ hfirst
    have hget : ∀ hop ∈ hops config.stages, (st.along config.stages hop)[b]? =
        some ((st.along config.stages hop)[b]?.getD s₀) := by
      intro hop hhop
      obtain ⟨s, hs⟩ := hsome b hb hop hhop
      rw [hs, Option.getD_some]
    refine ⟨fun hop => (st.along config.stages hop)[b]?.getD s₀, fun hop hhop =>
      hsole b _ hop hhop (hget hop hhop), ?_⟩
    refine hst.chained.isChain.imp_of_mem_imp fun hop hop' hhop hhop' hprecede => ?_
    exact hprecede b _ _ (hget hop hhop) (hget hop' hhop')
  · obtain ⟨s, hs⟩ := hsome b (by omega) _ hlast
    obtain ⟨s', hs'⟩ := hsome (b + config.pool) hb _ hfirst
    exact ⟨s, s', hsole b s _ hlast hs, hsole _ s' _ hfirst hs', hst.chained.reuse b s s' hs hs'⟩

theorem stamps_recover_causal_structure_twice_around :
    ∃ report, PipelineConfig.Returns ⟨2, 1, 1, 1, 42, true⟩ (.ok report) ∧ ∃ s s',
      SoleEvent report.trace (.sink, .send) 0 s ∧ SoleEvent report.trace (.producer, .send) 1 s' ∧
      s.happenedBefore s' = true := by
  obtain ⟨hfinishes, hcausal, -⟩ := stamps_recover_causal_structure ⟨2, 1, 1, 1, 42, true⟩
    (by unfold PipelineConfig.Fits; decide) rfl le_rfl
  obtain ⟨report, hreturns⟩ := hfinishes (Or.inr (by decide))
  exact ⟨report, hreturns, (hcausal report hreturns).2 0 (by decide)⟩

end Reports

end Muaddib
