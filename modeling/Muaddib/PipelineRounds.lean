import Muaddib.PipelineTraces

/-! # Rounds of the kernel pipeline

The pipeline simulates a ring of tokens: a turn of a process is the turn of its seat. -/
namespace Muaddib
open RingPipelines

def regionWork (config : PipelineConfig) : Work Token UInt64 where
  fill b x := x.hop (fillBatch config.seed (UInt64.ofNat b) x.bytes)
  stage i x := x.hop (transform i x.bytes)
  retire x := x.hop x.bytes
  result x := checksum x.bytes

section Crew
variable (config : PipelineConfig) (r : Carousel Token UInt64) (stage : PipelineStage) (p : Process)

/-- The table holds nothing but the views of the two channels and the handles in `others`. -/
def PipelineStage.Confined (stage : PipelineStage) (p : Process) (others : List Handle) : Prop :=
  ∀ a c, p.capability a = some c → stage.input = some a ∨ stage.output = some a ∨ a ∈ others

/-- A process that takes from queue `k`. Every region it handled cost it one handle. -/
structure Relays (k : ℕ) : Prop where
  linked : stage.Linked p k (k + 1)
  confined : stage.Confined p []
  table : ∃ n, n + (Carousel.flight r.chan k).length ≤ r.next ∧ p.Upto (2 + n)

/-- The producer: its free regions are the pool, and every returned region cost it a handle. -/
structure Supplies : Prop where
  linked : stage.Linked p (config.stages + 1) 0
  confined : stage.Confined p stage.freeRegions
  table : ∃ n, n + r.returns.length ≤ r.results.length ∧ p.Upto (2 + config.pool + n)
  free : List.Forall₂ (fun a x => p.capability a = some x.cap) stage.freeRegions r.pool
  nextBatch : stage.nextBatch = UInt64.ofNat r.next

def HoldsChannels : Prop := ∀ a c, p.capability a = some c ↔
  ∃ k, k < config.stages + 2 ∧ a = handleTo k ∧ c = ⟨objectAt k, fullRights, 0⟩

def Manned : Seat → Prop
  | .supervisor => stage.role = .supervisor ∧ HoldsChannels config p
  | .sink => stage.role = .sink ∧ Relays r stage p config.stages
  | .transformer i => stage.role = .transformer i ∧ Relays r stage p i
  | .producer => stage.role = .producer ∧ Supplies config r stage p

/-- The stages sit in the order of the seats, and process `j` is the one of stage `j`. -/
structure Crewed (seats : List Seat) (stages : List PipelineStage) (sched : Scheduler) : Prop where
  length : stages.length = seats.length
  member : ∀ j seat, seats[j]? = some seat → ∃ stage p, stages[j]? = some stage ∧
    stage.pid = pidAt j ∧ sched.process (pidAt j) = some p ∧ Manned config r stage p seat

end Crew

section Crew
variable {config : PipelineConfig} {r r' : Carousel Token UInt64} {stage : PipelineStage}
  {p : Process} {seats : List Seat} {stages : List PipelineStage} {sched : Scheduler}

/-- A stage is as fit as before, if no item arrives in front of it without a batch being begun. -/
theorem Manned.frame {seat : Seat} (h : Manned config r stage p seat)
    (hflight : ∀ k, (Carousel.flight r'.chan k).length + r.next ≤
      (Carousel.flight r.chan k).length + r'.next)
    (hproducer : seat = .producer → r'.pool = r.pool ∧ r'.next = r.next ∧
      r'.returns.length + r.results.length ≤ r.returns.length + r'.results.length) :
    Manned config r' stage p seat := by
  have hrelays : ∀ k, Relays r stage p k → Relays r' stage p k := by
    intro k hk
    obtain ⟨n, hn, htable⟩ := hk.table
    have hframe := hflight k
    exact ⟨hk.linked, hk.confined, n, by omega, htable⟩
  cases seat with
  | supervisor => exact h
  | sink => exact ⟨h.1, hrelays _ h.2⟩
  | transformer i => exact ⟨h.1, hrelays i h.2⟩
  | producer =>
    obtain ⟨hpool, hnext, hreturns⟩ := hproducer rfl
    obtain ⟨n, hn, htable⟩ := h.2.table
    refine ⟨h.1, h.2.linked, h.2.confined, ⟨n, by omega, htable⟩, ?_, ?_⟩
    · rw [hpool]
      exact h.2.free
    · rw [hnext]
      exact h.2.nextBatch

/-- One stage has had its turn; the others only need to be as fit as before. -/
theorem Crewed.replace (h : Crewed config r seats stages sched) {j : ℕ} {seat : Seat}
    (hseat : seats[j]? = some seat) (hlen : seats.length < 2 ^ 64)
    (hmanned : Manned config r' stage p seat) (hpid : stage.pid = pidAt j)
    (hframe : ∀ i seat' stage p, i ≠ j → seats[i]? = some seat' →
      Manned config r stage p seat' → Manned config r' stage p seat') :
    Crewed config r' seats (stages.set j stage) (sched.setProcess (pidAt j) p) := by
  have hj : j < seats.length := (List.getElem?_eq_some_iff.mp hseat).1
  refine ⟨by rw [List.length_set, h.length], fun i seat' hi => ?_⟩
  by_cases hij : i = j
  · subst hij
    obtain rfl : seat = seat' := Option.some.inj (hseat.symm.trans hi)
    refine ⟨stage, p, ?_, hpid, ?_, hmanned⟩
    · rw [List.getElem?_set_self (by rw [h.length]; exact hj)]
    · rw [process_setProcess, if_pos rfl]
  · obtain ⟨stage', p', hstage', hpid', hp', hmanned'⟩ := h.member i seat' hi
    have hi' : i < seats.length := (List.getElem?_eq_some_iff.mp hi).1
    refine ⟨stage', p', ?_, hpid', ?_, hframe i seat' stage' p' hij hi hmanned'⟩
    · rw [List.getElem?_set_ne (Ne.symm hij), hstage']
    · rw [process_setProcess, if_neg, hp']
      rw [pidAt_inj (by omega) (by omega)]
      exact Ne.symm hij

end Crew

/-- A queued message carries a token and the number of its batch. -/
def Carries (m : Message) (x : ℕ × Token) : Prop :=
  m.data = (UInt64.ofNat x.1).toInt64 ∧ m.capabilities = [x.2.cap]

structure Circulates (config : PipelineConfig) (kp : KernelPipeline) (r : Carousel Token UInt64) :
    Prop where
  sameConfig : kp.config = config
  stocked : Stocked (config.stages + 2) kp.kernel kp.memory (r.items config.stages)
  queued : ∀ k, k ≤ config.stages → ∃ ms, kp.channels.queues[objectAt k]? = some ms ∧
    List.Forall₂ Carries ms (r.chan k)
  returned : ∃ ms, kp.channels.queues[objectAt (config.stages + 1)]? = some ms ∧
    List.Forall₂ (fun m x => m.capabilities = [x.cap]) ms r.returns
  crewed : Crewed config r (seats config.stages) kp.stages kp.sched

structure Reported {α : Type} (config : PipelineConfig) (results : List BatchResult) (stats : Stats)
    (turns idle : ℕ) (r : Carousel α UInt64) : Prop where
  results : results = r.results.map fun x => ⟨UInt64.ofNat x.1, x.2⟩
  stats : stats = ⟨UInt64.ofNat turns, UInt64.ofNat idle, UInt64.ofNat r.messages,
    UInt64.ofNat (r.messages * config.regionSize)⟩

theorem Reported.message {α : Type} {config : PipelineConfig} {results results' : List BatchResult}
    {stats : Stats} {turns idle : ℕ} {r r' : Carousel α UInt64}
    (h : Reported config results stats turns idle r) (more : List (ℕ × UInt64))
    (hmessages : r'.messages = r.messages + 1) (hring : r'.results = r.results ++ more)
    (hresults : results' = results ++ more.map fun x => ⟨UInt64.ofNat x.1, x.2⟩) :
    Reported config results' (stats.hop config) turns idle r' := by
  refine ⟨by rw [hresults, hring, List.map_append, h.results], ?_⟩
  rw [h.stats, hmessages, Nat.succ_mul, UInt64.ofNat_add, UInt64.ofNat_add]
  rfl

def PipelineConfig.Fits (config : PipelineConfig) : Prop :=
  config.batches.toNat + config.pool + config.stages + 2 < 2 ^ 32

/-- The ring has not begun more batches than there are, and no more messages than they need. -/
structure InBounds (config : PipelineConfig) (r : Carousel Token UInt64) : Prop where
  fits : config.Fits
  counted : Carousel.Counted config.stages config.batches.toNat config.pool r
  budget : r.messages + Carousel.remaining config.stages config.batches.toNat r ≤
    (config.stages + 3) * config.batches.toNat

namespace InBounds
variable {config : PipelineConfig} {r : Carousel Token UInt64}

theorem next_le (h : InBounds config r) : r.next ≤ config.batches.toNat := h.counted.next_le

theorem done_le (h : InBounds config r) : r.results.length ≤ r.next :=
  h.counted.flight_length ▸ Nat.le_add_right ..

theorem drained (h : InBounds config r) : InBounds config r.drained where
  fits := h.fits
  counted := h.counted.drained
  budget := by
    have hbudget := h.budget
    simp only [Carousel.remaining, Carousel.drained, List.length_nil] at hbudget ⊢
    omega

theorem ticks_lt (h : InBounds config r) :
    2 * (config.stages + 2) + 2 * r.messages + r.results.length + 2 < 2 ^ 64 := by
  have hfits := h.fits
  rw [PipelineConfig.Fits] at hfits
  have hnext := h.next_le
  have hdone := h.done_le
  have hmessages := (Nat.le_add_right ..).trans h.budget
  have hproduct : (config.stages + 3) * config.batches.toNat ≤ 2 ^ 62 := by
    obtain ⟨a, ha⟩ : ∃ a, a = config.stages + 3 := ⟨_, rfl⟩
    have hsum : a + config.batches.toNat ≤ 2 ^ 32 := by omega
    rw [← ha]
    nlinarith only [hsum, Nat.mul_self_le_mul_self hsum, sq_nonneg ((a : ℤ) - config.batches.toNat)]
  omega

end InBounds

/-- The pipeline after a turn, with the stage back in its place. -/
def KernelPipeline.Turn.settle (t : KernelPipeline.Turn) (index : ℕ) : KernelPipeline :=
  { t.kp with stages := t.kp.stages.set index t.stage }

/-- A turn that leaves the pipeline and its report at the ring `r'`, by calls on the system. -/
structure Stepped (config : PipelineConfig) (kp kp' : KernelPipeline) (report report' : PipelineReport)
    (r r' : Carousel Token UInt64) (calls : List Call) : Prop where
  ring : Circulates config kp' r'
  ready : kp'.sched.readyQueue = kp.sched.readyQueue
  reported : ∀ turns idle, Reported config report.results report.stats turns idle r →
    Reported config report'.results report'.stats turns idle r'
  minted : ∃ events, Plays kp.system calls events kp'.system ∧
    ∀ log, Minted config log r → Minted config (log ++ events) r'
  traced : config.trace = true → ∀ st, Chronicle config kp.channels kp.sched report.trace r st →
    ∃ st', Chronicle config kp'.channels kp'.sched report'.trace r' st'

theorem Stepped.trans {config : PipelineConfig} {kp₁ kp₂ kp₃ : KernelPipeline}
    {report₁ report₂ report₃ : PipelineReport} {r₁ r₂ r₃ : Carousel Token UInt64}
    {calls calls' : List Call} (h : Stepped config kp₁ kp₂ report₁ report₂ r₁ r₂ calls)
    (h' : Stepped config kp₂ kp₃ report₂ report₃ r₂ r₃ calls') :
    Stepped config kp₁ kp₃ report₁ report₃ r₁ r₃ (calls ++ calls') where
  ring := h'.ring
  ready := h'.ready.trans h.ready
  reported turns idle hr := h'.reported turns idle (h.reported turns idle hr)
  minted := by
    obtain ⟨events, hplays, hminted⟩ := h.minted
    obtain ⟨events', hplays', hminted'⟩ := h'.minted
    refine ⟨events ++ events', hplays.append hplays', fun log hlog => ?_⟩
    rw [← List.append_assoc]
    exact hminted' _ (hminted log hlog)
  traced hconfig st hst := by
    obtain ⟨st', hst'⟩ := h.traced hconfig st hst
    exact h'.traced hconfig st' hst'

section Turns
variable {config : PipelineConfig} {kp : KernelPipeline} {r : Carousel Token UInt64} {index fuel : ℕ}
  {report : PipelineReport}

open KernelPipeline Carousel

theorem set_self {α : Type*} {l : List α} {i : ℕ} {a : α} (h : l[i]? = some a) : l.set i a = l := by
  obtain ⟨hi, rfl⟩ := List.getElem?_eq_some_iff.mp h
  exact List.set_getElem_self hi

theorem seats_ne {stages i j : ℕ} {seat seat' : Seat} (hi : (seats stages)[i]? = some seat)
    (hj : (seats stages)[j]? = some seat') (hij : i ≠ j) : seat ≠ seat' := by
  rintro rfl
  obtain ⟨hi', hi⟩ := List.getElem?_eq_some_iff.mp hi
  obtain ⟨hj', hj⟩ := List.getElem?_eq_some_iff.mp hj
  exact hij ((nodup_seats stages).getElem_inj_iff.mp (hi.trans hj.symm))

theorem passed_queues (queues : Std.ExtTreeMap ObjectId (List Message)) (queue queue' : List Message)
    (src dst k : ℕ) (hsrc : src < 2 ^ 64) (hdst : dst < 2 ^ 64) (hk : k < 2 ^ 64) :
    ((queues.insert (objectAt src) queue).insert (objectAt dst) queue')[objectAt k]? =
      if dst = k then some queue' else if src = k then some queue else queues[objectAt k]? := by
  simp only [FiniteMaps.getElem?_insert, objectAt_inj hdst hk, objectAt_inj hsrc hk]

/-- The turn of the stage at `index` is the turn of `seat` in the ring. -/
def FollowsSeat (config : PipelineConfig) (kp : KernelPipeline) (r : Carousel Token UInt64)
    (fuel index : ℕ) (report : PipelineReport) (seat : Seat) : Prop :=
  ∃ stage t, kp.stages[index]? = some stage ∧ stageTurn fuel ⟨kp, stage, report⟩ =
      some (.ok ((r.turn (regionWork config) config.stages config.batches.toNat seat).1, t)) ∧
    Stepped config kp (t.settle index) report t.report r
      (r.turn (regionWork config) config.stages config.batches.toNat seat).2
      (turnCalls fuel ⟨kp, stage, report⟩)

theorem Circulates.idle (h : Circulates config kp r) {stage : PipelineStage}
    (hstage : kp.stages[index]? = some stage) {calls : List Call}
    (hplays : Plays kp.system calls [] kp.system) :
    Stepped config kp (Turn.settle ⟨kp, stage, report⟩ index) report report r r calls := by
  have hsettle : Turn.settle ⟨kp, stage, report⟩ index = kp := by
    simp only [Turn.settle, set_self hstage]
  rw [hsettle]
  exact ⟨h, rfl, fun _ _ hr => hr, ⟨[], hplays, fun log hlog => by rwa [List.append_nil]⟩,
    fun _ st hst => ⟨st, hst⟩⟩

theorem seats_producer_iff {stages index : ℕ} :
    (seats stages)[index]? = some .producer ↔ index = stages + 2 := by
  have hlast : (seats stages)[stages + 2]? = some .producer := by
    simp [seats]
  constructor
  · intro h
    by_contra hne
    exact seats_ne h hlast hne rfl
  · rintro rfl
    exact hlast

theorem stageTurn_of_roleAt {t : Turn} {stages k : ℕ} (hrole : t.stage.role = roleAt stages k)
    (fuel : ℕ) : stageTurn fuel t = some (passOn t) ∧ turnCalls fuel t = passOnCalls t := by
  by_cases hlt : k < stages
  · rw [roleAt, if_pos hlt] at hrole
    simp only [stageTurn, turnCalls, hrole, and_self]
  · rw [roleAt, if_neg hlt] at hrole
    simp only [stageTurn, turnCalls, hrole, and_self]

theorem Circulates.wait (h : Circulates config kp r)
    {stage : PipelineStage} {p : Process} (hstage : kp.stages[index]? = some stage)
    (hp : kp.sched.process stage.pid = some p) {k : ℕ} (hk : k ≤ config.stages)
    (hrole : stage.role = roleAt config.stages k) (hrelays : Relays r stage p k)
    (hc : r.chan k = []) :
    stageTurn fuel ⟨kp, stage, report⟩ = some (.ok (false, ⟨kp, stage, report⟩)) ∧
      Stepped config kp (Turn.settle ⟨kp, stage, report⟩ index) report report r r
        (turnCalls fuel ⟨kp, stage, report⟩) := by
  obtain ⟨ms, hq, hms⟩ := h.queued k hk
  rw [hc, List.forall₂_nil_right_iff] at hms
  rw [hms] at hq
  obtain ⟨hturn, hcalls⟩ := stageTurn_of_roleAt (t := ⟨kp, stage, report⟩) hrole fuel
  obtain ⟨hpass, hplays⟩ := passOn_of_nil (t := ⟨kp, stage, report⟩) h.stocked hp hrelays.linked
    (by omega) hq
  rw [hturn, hpass, hcalls]
  exact ⟨rfl, h.idle hstage hplays⟩

/-- The queues carry the tokens of the ring after one was passed on from queue `k`. -/
theorem Circulates.passed (h : Circulates config kp r) (hsmall : config.stages + 1 < 2 ^ 64) {k : ℕ}
    (hk : k ≤ config.stages) {b : ℕ} {y : Token} {m : Message} {rest ms : List Message}
    {queue : List (ℕ × Token)} (hm : m.data = (UInt64.ofNat b).toInt64)
    (hrest : List.Forall₂ Carries rest queue)
    (hq : kp.channels.queues[objectAt (k + 1)]? = some ms) (stamp : EventStamp)
    {r' : Carousel Token UInt64}
    (hchan : ∀ j, j ≤ config.stages → r'.chan j = if j = k + 1 then r.chan (k + 1) ++ [(b, y)]
      else if j = k then queue else r.chan j)
    (hreturns : r'.returns = if k = config.stages then r.returns ++ [y] else r.returns)
    {queues : Std.ExtTreeMap ObjectId (List Message)}
    (hqueues : queues = (kp.channels.queues.insert (objectAt k) rest).insert (objectAt (k + 1))
      (ms ++ [⟨m.data, [y.cap], stamp⟩])) :
    (∀ j, j ≤ config.stages → ∃ ms, queues[objectAt j]? = some ms ∧
      List.Forall₂ Carries ms (r'.chan j)) ∧
    ∃ ms, queues[objectAt (config.stages + 1)]? = some ms ∧
      List.Forall₂ (fun (m : Message) x => m.capabilities = [x.cap]) ms r'.returns := by
  have hlook := fun j (hj : j < 2 ^ 64) => passed_queues kp.channels.queues rest
    (ms ++ [⟨m.data, [y.cap], stamp⟩]) k (k + 1) j (by omega) (by omega) hj
  rw [← hqueues] at hlook
  refine ⟨fun j hj => ?_, ?_⟩
  · rw [hchan j hj, hlook j (by omega)]
    by_cases hnew : k + 1 = j
    · subst hnew
      obtain ⟨msn, hqn, hmsn⟩ := h.queued (k + 1) hj
      obtain rfl : ms = msn := Option.some.inj (hq.symm.trans hqn)
      rw [if_pos rfl, if_pos rfl]
      exact ⟨_, rfl, List.rel_append hmsn (.cons ⟨hm, rfl⟩ .nil)⟩
    · rw [if_neg hnew, if_neg (Ne.symm hnew)]
      by_cases hold : k = j
      · rw [if_pos hold, if_pos hold.symm]
        exact ⟨rest, rfl, hrest⟩
      · rw [if_neg hold, if_neg (Ne.symm hold)]
        exact h.queued j hj
  · obtain ⟨msr, hqr, hmsr⟩ := h.returned
    rw [hreturns, hlook (config.stages + 1) hsmall]
    by_cases hlast : k = config.stages
    · subst hlast
      obtain rfl : ms = msr := Option.some.inj (hq.symm.trans hqr)
      rw [if_pos rfl, if_pos rfl]
      exact ⟨_, rfl, List.rel_append hmsr (.cons rfl .nil)⟩
    · rw [if_neg (by omega), if_neg (by omega), if_neg hlast]
      exact ⟨msr, hqr, hmsr⟩

theorem Relays.relay {stage : PipelineStage} {p : Process} {k : ℕ} (h : Relays r stage p k)
    (hsmall : r.next + 2 < 2 ^ 32) {r' : Carousel Token UInt64}
    (hflight : (flight r'.chan k).length + 1 = (flight r.chan k).length) (hnext : r'.next = r.next)
    (cap : Capability) (sentAt : EventStamp) : Relays r' stage (p.relay cap sentAt) k := by
  obtain ⟨n, hn, htable⟩ := h.table
  have hsame : ∀ a, (p.relay cap sentAt).capability a = p.capability a :=
    htable.capability_relay (by omega)
  refine ⟨h.linked.keep fun a c ha => (hsame a).trans ha, fun a c ha => ?_, n + 1, by omega,
    htable.relay (by omega)⟩
  rw [hsame] at ha
  exact h.confined a c ha

/-- A transformer or the sink takes the item in front of it and passes it on. -/
theorem Circulates.relay (h : Circulates config kp r) (hb : InBounds config r) (fuel : ℕ)
    (report : PipelineReport) {seat : Seat} (hindex : (seats config.stages)[index]? = some seat)
    (hseat : seat ≠ .producer) {stage : PipelineStage} {p : Process} (hpid : stage.pid = pidAt index)
    (hp : kp.sched.process stage.pid = some p) {k : ℕ} (hk : k ≤ config.stages)
    (hrole : stage.role = roleAt config.stages k) (hrelays : Relays r stage p k)
    (hmanned : ∀ r' p', Relays r' stage p' k → Manned config r' stage p' seat) {b : ℕ} {x y : Token}
    {queue : List (ℕ × Token)} (hc : r.chan k = (b, x) :: queue)
    (hy : y = x.hop (stage.role.work x.bytes)) {r' : Carousel Token UInt64} {others : List Token}
    (hbefore : (r.items config.stages).Perm (x :: others))
    (hafter : (r'.items config.stages).Perm (y :: others))
    (hchan : ∀ j, j ≤ config.stages → r'.chan j = if j = k + 1 then r.chan (k + 1) ++ [(b, y)]
      else if j = k then queue else r.chan j)
    (hreturns : r'.returns = if k = config.stages then r.returns ++ [y] else r.returns)
    (hflight : ∀ j, (flight r'.chan j).length ≤ (flight r.chan j).length)
    (htaken : ∀ j, j ≤ config.stages →
      (flight r'.chan j).length + (if j = k then 1 else 0) = (flight r.chan j).length)
    (hnext : r'.next = r.next) (hpool : r'.pool = r.pool) (hmessages : r'.messages = r.messages + 1)
    (more : List (ℕ × UInt64)) (hresults : r'.results = r.results ++ more)
    (hfinished : stage.role.finished (UInt64.ofNat b) x.bytes =
      more.map fun z => ⟨UInt64.ofNat z.1, z.2⟩)
    (hback : r'.returns.length + r.results.length ≤ r.returns.length + r'.results.length) :
    ∃ t, stageTurn fuel ⟨kp, stage, report⟩ = some (.ok (true, t)) ∧
      Stepped config kp (t.settle index) report t.report r r'
        (turnCalls fuel ⟨kp, stage, report⟩) := by
  subst hy
  obtain ⟨n, hn, htable⟩ := hrelays.table
  have hfits := hb.fits
  rw [PipelineConfig.Fits] at hfits
  have hnext_le := hb.next_le
  obtain ⟨hturn, hcalls⟩ := stageTurn_of_roleAt (t := ⟨kp, stage, report⟩) hrole fuel
  obtain ⟨ms, hq, hms⟩ := h.queued k hk
  rw [hc, List.forall₂_cons_right_iff] at hms
  obtain ⟨m, rest, hm, hrest, rfl⟩ := hms
  have hdst : ∃ ms', kp.channels.queues[objectAt (k + 1)]? = some ms' := by
    rcases Nat.lt_or_eq_of_le hk with hlt | rfl
    · exact (h.queued (k + 1) hlt).imp fun _ hms => hms.1
    · exact h.returned.imp fun _ hms => hms.1
  obtain ⟨ms', hq'⟩ := hdst
  have hstocked := h.stocked.perm hbefore
  obtain ⟨kp', rfl, hpass, hplays⟩ :=
    passOn_of_cons (t := ⟨kp, stage, report⟩) hstocked List.mem_cons_self hp htable (by omega)
      hrelays.linked (by omega) (by omega)
      (by rw [Ne, objectAt_inj (by omega) (by omega)]; omega) hq hm.2 hq'
  have hbatch : m.data.toUInt64 = UInt64.ofNat b := by
    rw [hm.1]
    rfl
  simp only [hbatch] at hpass
  obtain ⟨hqueued, hreturned⟩ := h.passed (by omega) hk hm.1 hrest hq'
    (p.clock.receiveEvent m.sentAt).2.sendEvent.1 hchan hreturns rfl
  have hown := htaken k hk
  rw [if_pos rfl] at hown
  rw [hturn, hpass, hcalls]
  refine ⟨_, rfl, ⟨h.sameConfig, (hstocked.hop _).perm hafter.symm, hqueued, hreturned, ?_⟩, rfl, ?_,
    ?_, ?_⟩
  · simp only [Turn.settle, KernelPipeline.hop, hpid]
    refine h.crewed.replace hindex (by rw [length_seats]; omega)
      (hmanned _ _ (hrelays.relay (by omega) hown hnext x.cap m.sentAt)) hpid ?_
    intro j seat' stage' q hj hseat' hmanned
    refine hmanned.frame (fun j => ?_) fun _ => ⟨hpool, hnext, hback⟩
    have hother := hflight j
    omega
  · intro turns idle hr
    rw [PipelineReport.relayed_results, PipelineReport.relayed_stats]
    simp only [h.sameConfig]
    exact hr.message more hmessages hresults (by rw [hfinished])
  · exact ⟨_, hplays, fun log hlog => hlog.hop hbefore _ hafter h.stocked.apart
      (hstocked.rights x List.mem_cons_self) hmessages⟩
  · intro hconfig st hst
    rw [PipelineReport.relayed_trace _ _ _ _ _ _ _ (h.sameConfig ▸ hconfig)]
    simp only [Turn.settle, KernelPipeline.hop, hrole]
    rw [hb.counted.head_eq hk hc]
    refine ⟨_, hst.relay hb.counted hk hq hq' hp ?_ rfl rfl (p.relay_clock x.cap m.sentAt)
      hb.ticks_lt hnext (fun j hj => ?_) hmessages hback _ _⟩
    · rw [hpid, Ne, pidAt_inj _ (by omega)]
      · intro heq
        rw [seats_producer_iff.mpr heq] at hindex
        exact hseat (Option.some.inj hindex).symm
      · have hlt := (List.getElem?_eq_some_iff.mp hindex).1
        rw [length_seats] at hlt
        omega
    · have hadd := hb.counted.taken_add hj
      have hshift := htaken j hj
      unfold Carousel.taken at hadd ⊢
      omega

theorem Circulates.sink_turn (h : Circulates config kp r) (hb : InBounds config r)
    (hindex : (seats config.stages)[index]? = some .sink) :
    FollowsSeat config kp r fuel index report .sink := by
  obtain ⟨stage, p, hstage, hpid, hp, hrole, hrelays⟩ := h.crewed.member index .sink hindex
  rw [← hpid] at hp
  have hrole' : stage.role = roleAt config.stages config.stages := by
    rw [hrole, roleAt, if_neg (Nat.lt_irrefl _)]
  cases hc : r.chan config.stages with
  | nil =>
    refine ⟨stage, ⟨kp, stage, report⟩, hstage, ?_⟩
    simp only [turn, hc]
    exact h.wait hstage hp le_rfl hrole' hrelays hc
  | cons item queue =>
    obtain ⟨b, x⟩ := item
    obtain ⟨others, hbefore, hafter⟩ := items_sink hc (x.hop x.bytes)
      (r.results ++ [(b, checksum x.bytes)]) (r.messages + 1)
    have hchan : ∀ j, j ≤ config.stages → Function.update r.chan config.stages queue j =
        if j = config.stages + 1 then r.chan (config.stages + 1) ++ [(b, x.hop x.bytes)]
        else if j = config.stages then queue else r.chan j := by
      intro j hj
      rw [if_neg (by omega), Function.update_apply]
    have htaken : ∀ j, j ≤ config.stages →
        (flight (Function.update r.chan config.stages queue) j).length +
          (if j = config.stages then 1 else 0) = (flight r.chan j).length := by
      intro j hj
      split
      · next heq => rw [heq, flight_sink hc, List.length_cons]
      · next hne =>
        rw [Nat.add_zero, flight_congr]
        intro i hi
        rw [Function.update_of_ne (by omega)]
    obtain ⟨t, hturn, hstepped⟩ := h.relay hb fuel report hindex (by simp) hpid
      hp le_rfl hrole' hrelays (fun _ _ hrelays => ⟨hrole, hrelays⟩) hc (by rw [hrole]; rfl) hbefore
      hafter hchan (if_pos rfl).symm (fun j => length_flight_take hc) htaken rfl rfl rfl
      [(b, checksum x.bytes)] rfl (by rw [hrole]; rfl) (by
        simp only [List.length_append, List.length_singleton]
        omega)
    simp only [FollowsSeat, turn, hc]
    exact ⟨stage, t, hstage, hturn, hstepped⟩

theorem Circulates.transformer_turn (h : Circulates config kp r) (hb : InBounds config r) {i : ℕ}
    (hindex : (seats config.stages)[index]? = some (.transformer i)) :
    FollowsSeat config kp r fuel index report (.transformer i) := by
  obtain ⟨stage, p, hstage, hpid, hp, hrole, hrelays⟩ :=
    h.crewed.member index (.transformer i) hindex
  have hi : i < config.stages := by simpa [seats] using List.mem_of_getElem? hindex
  rw [← hpid] at hp
  have hrole' : stage.role = roleAt config.stages i := by rw [hrole, roleAt, if_pos hi]
  cases hc : r.chan i with
  | nil =>
    refine ⟨stage, ⟨kp, stage, report⟩, hstage, ?_⟩
    simp only [turn, hc]
    exact h.wait hstage hp hi.le hrole' hrelays hc
  | cons item queue =>
    obtain ⟨b, x⟩ := item
    obtain ⟨others, hbefore, hafter⟩ := items_stage hi hc (x.hop (transform i x.bytes))
      (r.messages + 1)
    have hlen := fun k => length_flight_stage (k := k) (y := x.hop (transform i x.bytes)) hc
    obtain ⟨t, hturn, hstepped⟩ := h.relay hb fuel report hindex (by simp) hpid
      hp hi.le hrole' hrelays (fun _ _ hrelays => ⟨hrole, hrelays⟩) hc (by rw [hrole]; rfl) hbefore
      hafter (fun j _ => by simp only [Function.update_apply]) (if_neg hi.ne).symm
      (fun j => (Nat.le_add_right ..).trans (hlen j).le) (fun j _ => hlen j) rfl rfl rfl []
      (List.append_nil _).symm (by rw [hrole]; rfl) le_rfl
    simp only [FollowsSeat, turn, hc]
    exact ⟨stage, t, hstage, hturn, hstepped⟩

/-- The producer at work: the stage in its hands fits its seat. -/
structure AtWork (config : PipelineConfig) (r : Carousel Token UInt64) (t : Turn) (index : ℕ)
    (p : Process) : Prop where
  pid : t.stage.pid = pidAt index
  role : t.stage.role = .producer
  process : t.kp.sched.process t.stage.pid = some p
  supplies : Supplies config r t.stage p

theorem Circulates.drain (h : Circulates config kp r) (hb : InBounds config r)
    (hindex : (seats config.stages)[index]? = some .producer) {stage : PipelineStage} {p : Process}
    (hwork : AtWork config r ⟨kp, stage, report⟩ index p)
    (hfuel : r.returns.length < fuel) :
    ∃ p' t, drainReturns ⟨objectAt (config.stages + 1), .READ, 0⟩ fuel false ⟨kp, stage, report⟩ =
        some (.ok (!r.returns.isEmpty, t)) ∧ AtWork config r.drained t index p' ∧
      Stepped config kp (t.settle index) report t.report r r.drained
        (drainCalls ⟨objectAt (config.stages + 1), .READ, 0⟩ stage.pid fuel kp) := by
  obtain ⟨hpid, hrole, hp, hsupplies⟩ := hwork
  change stage.pid = pidAt index at hpid
  change stage.role = .producer at hrole
  obtain ⟨ms, hq, hms⟩ := h.returned
  obtain ⟨n, hn, htable⟩ := hsupplies.table
  have hfits := hb.fits
  rw [PipelineConfig.Fits] at hfits
  have hnext := hb.next_le
  have hdone := hb.done_le
  have hlen := hms.length_eq
  have hempty : ms.isEmpty = r.returns.isEmpty := by
    cases ms <;> cases hr : r.returns <;> simp_all
  obtain ⟨_, handles, report', rfl, hdrain, htable', hkeep, hback, hheld, hresults, hstats,
      ⟨more, htrace, hmore⟩, hplays⟩ :=
    drainReturns_eq hms (t := ⟨kp, stage, report⟩) false
      (h.stocked.check_channel (Nat.lt_succ_self _) .READ) hp htable (by omega) hq
      (by omega : ms.length < fuel)
  rw [Bool.false_or, hempty] at hdrain
  have hsupplies' : Supplies config r.drained
      { stage with freeRegions := stage.freeRegions ++ handles } (p.collect ms) := by
    have hlinked := hsupplies.linked.keep hkeep
    refine ⟨⟨hlinked.input, hlinked.output⟩, fun a c ha => ?_, ⟨n + ms.length, ?_, ?_⟩, ?_,
      hsupplies.nextBatch⟩
    · rcases hback a c ha with hold | hnew
      · refine (hsupplies.confined a c hold).imp_right (Or.imp_right fun hfree => ?_)
        exact List.mem_append_left _ hfree
      · exact Or.inr (Or.inr (List.mem_append_right _ hnew))
    · simp only [drained, List.length_nil]
      omega
    · rw [← Nat.add_assoc]
      exact htable'
    · exact List.rel_append (hsupplies.free.imp fun _ _ ha => hkeep _ _ ha) hheld
  refine ⟨p.collect ms, _, hdrain, ⟨hpid, hrole, setProcess_process_self _, hsupplies'⟩, ?_⟩
  refine ⟨⟨h.sameConfig, h.stocked.perm (items_drain r _), ?_, ?_, ?_⟩, rfl, ?_,
    ⟨[], hplays, fun log hlog => ?_⟩, fun hconfig st hst => ⟨st, ?_⟩⟩
  · intro k hk
    obtain ⟨msk, hqk, hmsk⟩ := h.queued k hk
    refine ⟨msk, ?_, hmsk⟩
    simp only [Turn.settle]
    rw [FiniteMaps.getElem?_insert, if_neg, hqk]
    rw [objectAt_inj (by omega) (by omega)]
    omega
  · refine ⟨[], ?_, .nil⟩
    simp only [Turn.settle]
    rw [FiniteMaps.getElem?_insert, if_pos rfl]
  · have hmanned : Manned config r.drained { stage with freeRegions := stage.freeRegions ++ handles }
        (p.collect ms) .producer := ⟨hrole, hsupplies'⟩
    have hreplaced := h.crewed.replace hindex (by rw [length_seats]; omega) hmanned hpid ?_
    · rw [← hpid] at hreplaced
      exact hreplaced
    intro j seat' stage' q hj hseat' hmanned
    exact hmanned.frame (fun _ => le_rfl) fun heq =>
      absurd heq (seats_ne hseat' hindex hj)
  · intro turns idle hr
    rw [hresults, hstats]
    exact ⟨hr.results, hr.stats⟩
  · rw [List.append_nil]
    exact hlog.perm (items_drain r _) rfl
  · have hlast : stage.pid = pidAt (config.stages + 2) := by
      rw [hpid, seats_producer_iff.mp hindex]
    have hticks := hb.ticks_lt
    rw [htrace]
    simp only [Turn.settle, hlast]
    exact hst.collect hq hlen (hlast ▸ hp) (fun e he => hrole ▸ hmore e he) (by omega)

/-- The producer's supplies after it gave its first free region away. -/
theorem Supplies.emit {stage : PipelineStage} {p : Process} (h : Supplies config r stage p)
    {tokens : List Token} {kernel : Kernel} {memory : RegionRegistry}
    (hstocked : Stocked (config.stages + 2) kernel memory tokens) {x : Token} {pool : List Token}
    (hx : x ∈ tokens) (hpool : r.pool = x :: pool) (hapart : ∀ y ∈ pool, y.cap ≠ x.cap) {a : Handle}
    {rest : List Handle} (hfree : stage.freeRegions = a :: rest) (ha : p.capability a = some x.cap)
    {r' : Carousel Token UInt64} (hpool' : r'.pool = pool) (hnext : r'.next = r.next + 1)
    (hreturns : r'.returns = r.returns) (hresults : r'.results = r.results) :
    Supplies config r'
      { stage with freeRegions := rest, nextBatch := UInt64.ofNat r.next + 1 }
      (p.depart [(.move a, x.cap)]) := by
  obtain ⟨n, hn, htable⟩ := h.table
  have hbeyond := hstocked.beyond x hx
  have hlinked := h.linked.depart ha (hbeyond _ (by omega)) (hbeyond _ (by omega))
  have hrest := h.free
  rw [hpool, hfree, List.forall₂_cons] at hrest
  refine ⟨⟨hlinked.input, hlinked.output⟩, fun b c hb => ?_, ⟨n, by rwa [hreturns, hresults],
    htable.depart _⟩, ?_, ?_⟩
  · rw [Process.capability_depart] at hb
    split at hb
    · cases hb
    · next hstays =>
      refine (h.confined b c hb).imp_right (Or.imp_right fun hmem => ?_)
      rw [hfree, List.mem_cons] at hmem
      refine hmem.resolve_left fun heq => hstays ?_
      simp [leavingHandles, Grant.leaving, heq]
  · rw [hpool']
    have hboth := (List.forall₂_and_left _ _).mpr ⟨hapart, hrest.2.flip⟩
    exact hboth.flip.imp fun b y hb => Process.depart_keeps ha hb.2 hb.1
  · change UInt64.ofNat r.next + 1 = _
    rw [hnext, UInt64.ofNat_add]
    rfl

/-- The producer fills its first free region with the next batch and sends it. -/
theorem Circulates.emit_batch {t : Turn} {p : Process} (h : Circulates config (t.settle index) r)
    (hb : InBounds config r) (hindex : (seats config.stages)[index]? = some .producer)
    (hwork : AtWork config r t index p) (hreturns : r.returns = []) (progressed : Bool) {x : Token}
    {pool : List Token} (hpool : r.pool = x :: pool) (hlt : r.next < config.batches.toNat)
    (hless : t.stage.nextBatch < t.kp.config.batches) :
    ∃ t', KernelPipeline.emit progressed t = .ok (true, t') ∧
      Stepped config (t.settle index) (t'.settle index) t.report t'.report r
        (r.turn (regionWork config) config.stages config.batches.toNat .producer).2
        (emitCalls t) := by
  obtain ⟨hpid, hrole, hp, hsupplies⟩ := hwork
  have hconfig : t.kp.config = config := h.sameConfig
  have hfits := hb.fits
  rw [PipelineConfig.Fits] at hfits
  have hfree := hsupplies.free
  rw [hpool, List.forall₂_cons_right_iff] at hfree
  obtain ⟨a, rest, ha, -, hfree⟩ := hfree
  obtain ⟨ms, hq, hms⟩ := h.queued 0 (Nat.zero_le _)
  obtain ⟨msr, hqr, hmsr⟩ := h.returned
  obtain ⟨others, hbefore, hafter⟩ := items_fill config.stages hpool r.next
    (x.hop (fillBatch config.seed (UInt64.ofNat r.next) x.bytes)) (r.next + 1) (r.messages + 1)
  have hstocked := h.stocked.perm hbefore
  obtain ⟨_, rfl, hemit, hplays⟩ := emit_of_cons progressed
    hstocked List.mem_cons_self hp hsupplies.linked (by omega) hq hfree ha hless
  rw [hsupplies.nextBatch, hconfig] at hemit hplays
  simp only [turn, if_pos hlt, hpool, hreturns, List.append_nil]
  rw [hreturns] at hafter
  rw [hreturns, List.forall₂_nil_right_iff] at hmsr
  rw [hmsr] at hqr
  have hapart : ∀ y ∈ pool, y.cap ≠ x.cap := by
    have hobjects := h.stocked.apart
    rw [items, hpool, List.map_append, List.map_cons] at hobjects
    have hx := (List.nodup_cons.mp hobjects.of_append_right).1
    intro y hy heq
    exact hx (heq ▸ List.mem_map_of_mem (f := fun z : Token => z.cap.object) hy)
  refine ⟨_, hemit, ⟨hconfig, (hstocked.hop _).perm hafter.symm, ?_, ⟨[], ?_, .nil⟩, ?_⟩, rfl, ?_,
    ⟨_, hplays, fun log hlog => ?_⟩, fun htrace st hst => ?_⟩
  · intro k hk
    simp only [Turn.settle, KernelPipeline.hop, Function.update_apply]
    rw [FiniteMaps.getElem?_insert]
    simp only [objectAt_inj (Nat.two_pow_pos 64) (by omega : k < 2 ^ 64)]
    by_cases hfirst : 0 = k
    · rw [if_pos hfirst, if_pos hfirst.symm]
      exact ⟨_, rfl, List.rel_append hms (.cons ⟨rfl, rfl⟩ .nil)⟩
    · rw [if_neg hfirst, if_neg (Ne.symm hfirst)]
      exact h.queued k hk
  · simp only [Turn.settle, KernelPipeline.hop]
    rw [FiniteMaps.getElem?_insert, if_neg, ← hqr]
    · rfl
    · rw [objectAt_inj (by omega) (by omega)]
      omega
  · simp only [Turn.settle, KernelPipeline.hop, hpid]
    rw [← List.set_set t.stage]
    refine h.crewed.replace hindex (by rw [length_seats]; omega) ⟨hrole, ?_⟩ rfl ?_
    · rw [← hpid]
      exact hsupplies.emit hstocked List.mem_cons_self hpool hapart hfree ha rfl rfl hreturns.symm rfl
    intro j seat' stage' q hj hseat' hmanned
    refine hmanned.frame (fun k => ?_) fun heq => absurd heq (seats_ne hseat' hindex hj)
    simp only [flight_produce, List.length_append, List.length_singleton]
    omega
  · intro turns idle hr
    rw [PipelineReport.emitted_results, PipelineReport.emitted_stats]
    exact hr.message [] rfl (List.append_nil _).symm (List.append_nil _).symm
  · exact hlog.hop hbefore _ hafter h.stocked.apart (hstocked.rights x List.mem_cons_self) rfl
  · have hlast : t.stage.pid = pidAt (config.stages + 2) := by
      rw [hpid, seats_producer_iff.mp hindex]
    have hticks := hb.ticks_lt
    rw [PipelineReport.emitted_trace _ _ _ _ _ htrace, hrole]
    simp only [Turn.settle, KernelPipeline.hop, hlast]
    refine ⟨_, hst.emit hb.counted hqr hq (hlast ▸ hp) rfl ?_ (by omega) rfl (fun k hk => ?_) rfl
      (by rw [hreturns]) _ _⟩
    · rw [Process.depart_clock]
    · simp only [Carousel.taken, flight_produce, List.length_append, List.length_singleton]
      omega

/-- With nothing returned, the producer's turn is to emit a batch, if it can. -/
theorem Circulates.emit {t : Turn} {p : Process} (h : Circulates config (t.settle index) r)
    (hb : InBounds config r) (hindex : (seats config.stages)[index]? = some .producer)
    (hwork : AtWork config r t index p) (hreturns : r.returns = []) (progressed : Bool) :
    ∃ t', KernelPipeline.emit progressed t = .ok (progressed ||
        (r.turn (regionWork config) config.stages config.batches.toNat .producer).1, t') ∧
      Stepped config (t.settle index) (t'.settle index) t.report t'.report r
        (r.turn (regionWork config) config.stages config.batches.toNat .producer).2
        (emitCalls t) := by
  have hnext := hb.next_le
  have hless : t.stage.nextBatch < t.kp.config.batches ↔ r.next < config.batches.toNat := by
    have hconfig : t.kp.config = config := h.sameConfig
    have hsmall := config.batches.toNat_lt
    rw [hconfig, hwork.supplies.nextBatch, UInt64.lt_iff_toNat_lt, UInt64.toNat_ofNat',
      Nat.mod_eq_of_lt (by omega)]
  have hstay : emitCalls t = [] → Stepped config (t.settle index) (t.settle index) t.report t.report
      r r (emitCalls t) := by
    intro hcalls
    rw [hcalls]
    exact ⟨h, rfl, fun _ _ hr => hr, ⟨[], .nil _, fun log hlog => by rwa [List.append_nil]⟩,
      fun _ st hst => ⟨st, hst⟩⟩
  by_cases hlt : r.next < config.batches.toNat
  · cases hpool : r.pool with
    | nil =>
      have hfree := hwork.supplies.free
      rw [hpool, List.forall₂_nil_right_iff] at hfree
      obtain ⟨hemit, hcalls⟩ := emit_of_nil progressed hfree
      simp only [turn, if_pos hlt, hpool, hreturns, List.append_nil, Bool.or_false]
      exact ⟨t, hemit, hstay hcalls⟩
    | cons x pool =>
      have htrue : (r.turn (regionWork config) config.stages config.batches.toNat .producer).1 =
          true := by simp only [turn, if_pos hlt, hpool, hreturns, List.append_nil]
      rw [htrue, Bool.or_true]
      exact h.emit_batch hb hindex hwork hreturns progressed hpool hlt (hless.mpr hlt)
  · obtain ⟨hemit, hcalls⟩ := emit_of_finished progressed (mt hless.mp hlt)
    refine ⟨t, ?_, ?_⟩
    · rw [hemit]
      simp only [turn, if_neg hlt, hreturns, List.isEmpty_nil, Bool.not_true, Bool.or_false]
    · have hsame : (r.turn (regionWork config) config.stages config.batches.toNat .producer).2 = r := by
        apply turn_idle
        simp only [turn, if_neg hlt, hreturns, List.isEmpty_nil, Bool.not_true]
      rw [hsame]
      exact hstay hcalls

theorem Circulates.producer_turn (h : Circulates config kp r) (hb : InBounds config r)
    (hindex : (seats config.stages)[index]? = some .producer) (hfuel : r.returns.length < fuel) :
    FollowsSeat config kp r fuel index report .producer := by
  obtain ⟨stage, p, hstage, hpid, hp, hrole, hsupplies⟩ := h.crewed.member index .producer hindex
  rw [← hpid] at hp
  have hstart : AtWork config r ⟨kp, stage, report⟩ index p := ⟨hpid, hrole, hp, hsupplies⟩
  obtain ⟨p', t, hdrain, hwork, hdrained⟩ := h.drain hb hindex hstart hfuel
  obtain ⟨t', hemit, hemitted⟩ := hdrained.ring.emit hb.drained hindex hwork rfl (!r.returns.isEmpty)
  obtain ⟨input, hin, hread⟩ := hsupplies.linked.input
  have hcalls : turnCalls fuel ⟨kp, stage, report⟩ =
      drainCalls ⟨objectAt (config.stages + 1), .READ, 0⟩ stage.pid fuel kp ++ emitCalls t := by
    simp only [turnCalls, hrole, hin, capAt_eq hp hread, hdrain]
  refine ⟨stage, t', hstage, ?_, ?_⟩
  · rw [turn_producer]
    simp only [stageTurn, hrole, hin, expect, bind, Except.bind, capOf_eq hp hread, hdrain,
      Option.map_some, hemit]
  · rw [turn_producer, hcalls]
    exact hdrained.trans hemitted

/-- Every turn of the kernel pipeline is the turn of its seat in the ring. -/
theorem Circulates.step (h : Circulates config kp r) (hb : InBounds config r)
    (report : PipelineReport) {seat : Seat} (hindex : (seats config.stages)[index]? = some seat)
    (hfuel : r.returns.length < fuel) :
    ∃ stage kp' report', kp.stages[index]? = some stage ∧ kp.step fuel index report = some (.ok
        ((r.turn (regionWork config) config.stages config.batches.toNat seat).1, kp', report')) ∧
      Stepped config kp kp' report report' r
        (r.turn (regionWork config) config.stages config.batches.toNat seat).2
        (turnCalls fuel ⟨kp, stage, report⟩) := by
  have hfollows : FollowsSeat config kp r fuel index report seat := by
    cases seat with
    | supervisor =>
      obtain ⟨stage, p, hstage, -, -, hrole, -⟩ := h.crewed.member index .supervisor hindex
      have hcalls : turnCalls fuel ⟨kp, stage, report⟩ = [] := by simp only [turnCalls, hrole]
      refine ⟨stage, ⟨kp, stage, report⟩, hstage, ?_, h.idle hstage (hcalls ▸ .nil _)⟩
      simp only [stageTurn, hrole, turn]
    | sink => exact h.sink_turn hb hindex
    | transformer i => exact h.transformer_turn hb hindex
    | producer => exact h.producer_turn hb hindex hfuel
  obtain ⟨stage, t, hstage, hturn, hstepped⟩ := hfollows
  refine ⟨stage, t.settle index, t.report, hstage, ?_, hstepped⟩
  simp only [KernelPipeline.step, hstage, hturn, Option.map_some, bind, Except.bind, pure,
    Except.pure, Turn.settle]

end Turns

end Muaddib
