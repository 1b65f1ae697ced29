import Muaddib.PipelineRuns

/-! # Who holds what between two turns of a pipeline run

Every region has one capability that works, and it is with the producer or in a message. Beyond its
regions nobody holds more than the views of its channels. -/
namespace Muaddib
open RingPipelines KernelPipeline Carousel LabelledRuns

structure Process.TableIs (p : Process) (entries : List (Handle × Capability)) : Prop where
  apart : (entries.map Prod.fst).Nodup
  entry_iff : ∀ a c, p.capability a = some c ↔ (a, c) ∈ entries

/-- The table has the view of the channel read from, that of the channel written to, and the
entries in `others`. -/
def PipelineStage.Views (stage : PipelineStage) (p : Process) (src dst : ℕ)
    (others : List (Handle × Capability)) : Prop :=
  ∃ input output, stage.input = some input ∧ stage.output = some output ∧
    p.TableIs ((input, ⟨objectAt src, .READ, 0⟩) :: (output, ⟨objectAt dst, .WRITE, 0⟩) :: others)

section Tables
variable {p : Process} {stage : PipelineStage} {entries : List (Handle × Capability)}

/-- Entries that hold of the table are under different handles, when their capabilities differ. -/
theorem Process.TableIs.of_held (hcaps : (entries.map Prod.snd).Nodup)
    (hheld : ∀ e ∈ entries, p.capability e.1 = some e.2)
    (hall : ∀ a c, p.capability a = some c → a ∈ entries.map Prod.fst) : p.TableIs entries := by
  refine ⟨?_, fun a c => ⟨fun hc => ?_, fun hmem => hheld (a, c) hmem⟩⟩
  · have hpairs := List.pairwise_map.mp hcaps
    refine List.pairwise_map.mpr (hpairs.imp_of_mem fun {e e'} he he' hne heq => hne ?_)
    have hcap := hheld e he
    rw [heq, hheld e' he'] at hcap
    exact (Option.some.inj hcap).symm
  · obtain ⟨e, he, rfl⟩ := List.mem_map.mp (hall a c hc)
    have hcap := hheld e he
    rw [hc] at hcap
    rw [Option.some.inj hcap]
    exact he

/-- A stage that is linked and confined to handles of known capabilities. -/
theorem PipelineStage.Linked.views {src dst : ℕ} {handles : List Handle} {caps : List Capability}
    (hlinked : stage.Linked p src dst) (hconfined : stage.Confined p handles)
    (hheld : List.Forall₂ (fun a c => p.capability a = some c) handles caps)
    (hcaps : (caps.map Capability.object).Nodup)
    (hsrc : ∀ c ∈ caps, c.object ≠ objectAt src) (hdst : ∀ c ∈ caps, c.object ≠ objectAt dst) :
    stage.Views p src dst (handles.zip caps) := by
  obtain ⟨input, hin, hread⟩ := hlinked.input
  obtain ⟨output, hout, hwrite⟩ := hlinked.output
  obtain ⟨hlen, hzip⟩ := List.forall₂_iff_zip.mp hheld
  refine ⟨input, output, hin, hout, .of_held ?_ ?_ ?_⟩
  · have hrights : (⟨objectAt src, .READ, 0⟩ : Capability) ≠ ⟨objectAt dst, .WRITE, 0⟩ := by
      intro heq
      have hread : Rights.READ ≠ Rights.WRITE := by decide
      exact hread (congrArg Capability.rights heq)
    rw [List.map_cons, List.map_cons, List.map_snd_zip hlen.ge, List.nodup_cons, List.nodup_cons,
      List.mem_cons]
    refine ⟨?_, fun hmem => hdst _ hmem rfl, hcaps.of_map _⟩
    rintro (heq | hmem)
    · exact hrights heq
    · exact hsrc _ hmem rfl
  · intro e he
    rcases List.mem_cons.mp he with rfl | he
    · exact hread
    · rcases List.mem_cons.mp he with rfl | he
      · exact hwrite
      · exact hzip he
  · intro a c hc
    rw [List.map_cons, List.map_cons, List.map_fst_zip hlen.le, List.mem_cons, List.mem_cons]
    rcases hconfined a c hc with hinput | houtput | hmem
    · rw [hin] at hinput
      exact Or.inl (Option.some.inj hinput).symm
    · rw [hout] at houtput
      exact Or.inr (Or.inl (Option.some.inj houtput).symm)
    · exact Or.inr (Or.inr hmem)

end Tables

namespace KernelPipeline

def queueLength (kp : KernelPipeline) (k : ℕ) : ℕ :=
  (kp.channels.queues[objectAt k]?.getD []).length

/-- Where a capability is: at a handle of the producer's free regions, or in a queued message. -/
def Keeps (kp : KernelPipeline) (c : Capability) : Spot → Prop
  | .pooled i => ∃ stage ∈ kp.stages, stage.role = .producer ∧ ∃ p a,
      kp.sched.process stage.pid = some p ∧ stage.freeRegions[i]? = some a ∧ p.capability a = some c
  | .queued k i => k < kp.config.stages + 2 ∧ ∃ queue m,
      kp.channels.queues[objectAt k]? = some queue ∧ queue[i]? = some m ∧ c ∈ m.capabilities

/-- The capabilities that were ever minted for `o` and still work. -/
def liveFor (kp : KernelPipeline) (calls : List Call) (o : ObjectId) : List Capability :=
  (minted (kernelLog (trace System.step .new calls))).filter fun c => c.object = o ∧ kp.kernel.Live c

def Privileged (kp : KernelPipeline) (stage : PipelineStage) (p : Process) : Role → Prop
  | .supervisor => p.TableIs ((List.range (kp.config.stages + 2)).map fun k =>
      (handleTo k, ⟨objectAt k, fullRights, 0⟩))
  | .producer => ∃ regions : List Capability, regions.length = stage.freeRegions.length ∧
      (∀ c ∈ regions, kp.kernel.Live c ∧
        ∃ j, j < kp.config.pool ∧ c.object = objectAt (kp.config.stages + 2 + j)) ∧
      stage.Views p (kp.config.stages + 1) 0 (stage.freeRegions.zip regions)
  | .transformer i => stage.Views p i (i + 1) []
  | .sink => stage.Views p kp.config.stages (kp.config.stages + 1) []

/-- What holds between two turns, after these calls. -/
structure Custody (config : PipelineConfig) (calls : List Call) (kp : KernelPipeline) : Prop where
  sameConfig : kp.config = config
  played : final System.step .new calls = kp.system
  regions : ∀ j, j < config.pool → ∃ c, kp.liveFor calls (objectAt (config.stages + 2 + j)) = [c] ∧
    c.rights = (.READ ||| .WRITE ||| .GRANT ||| .DESTROY) ∧
    (∃ bytes, kp.memory.regions[c.object]? = some bytes) ∧ ∃! spot, kp.Keeps c spot
  conserved : ∃ stage ∈ kp.stages, stage.role = .producer ∧ stage.freeRegions.length +
    ((List.range (config.stages + 2)).map kp.queueLength).sum = config.pool
  carried : ∀ k, k < config.stages + 2 → ∃ queue, kp.channels.queues[objectAt k]? = some queue ∧
    ∀ m ∈ queue, ∃ c, m.capabilities = [c]
  roles : kp.stages.map (fun stage => stage.role) = .supervisor :: .sink ::
    ((List.range config.stages).reverse.map Role.transformer ++ [.producer])
  tables : ∀ stage ∈ kp.stages, ∃ p, kp.sched.process stage.pid = some p ∧
    kp.Privileged stage p stage.role

end KernelPipeline

theorem exists_related {α β : Type*} {R : α → β → Prop} {l : List α} {l' : List β} {i : ℕ} {a : α}
    (h : List.Forall₂ R l l') (ha : l[i]? = some a) : ∃ b, l'[i]? = some b ∧ R a b := by
  induction h generalizing i with
  | nil => cases ha
  | @cons _ b _ _ hhead _ ih =>
    cases i with
    | zero => exact ⟨b, rfl, Option.some.inj ha ▸ hhead⟩
    | succ i => exact ih ha

section Custody
variable {config : PipelineConfig} {calls : List Call} {streak : UInt64} {kp : KernelPipeline}
  {report : PipelineReport} {r : Carousel Token UInt64} {t idle : ℕ} {stage : PipelineStage}
  {c : Capability}

def Seat.toRole : Seat → Role
  | .supervisor => .supervisor
  | .sink => .sink
  | .transformer i => .transformer i
  | .producer => .producer

theorem Manned.role_eq {p : Process} {seat : Seat} (h : Manned config r stage p seat) :
    stage.role = Seat.toRole seat := by
  cases seat with
  | supervisor | sink | transformer i | producer => exact h.1

theorem Crewed.of_mem {seats : List Seat} {stages : List PipelineStage} {sched : Scheduler}
    (h : Crewed config r seats stages sched) (hstage : stage ∈ stages) :
    ∃ seat p, sched.process stage.pid = some p ∧ Manned config r stage p seat := by
  obtain ⟨j, hj⟩ := List.mem_iff_getElem?.mp hstage
  have hlt := (List.getElem?_eq_some_iff.mp hj).1
  rw [h.length] at hlt
  obtain ⟨stage', p, hstage', hpid, hp, hmanned⟩ :=
    h.member j seats[j] (List.getElem?_eq_getElem hlt)
  obtain rfl : stage = stage' := Option.some.inj (hj.symm.trans hstage')
  exact ⟨seats[j], p, hpid ▸ hp, hmanned⟩

theorem Crewed.producer {stages : List PipelineStage} {sched : Scheduler}
    (h : Crewed config r (seats config.stages) stages sched) : ∃ stage ∈ stages, ∃ p,
      stage.role = .producer ∧ sched.process stage.pid = some p ∧ Supplies config r stage p := by
  obtain ⟨stage, p, hstage, hpid, hp, hrole, hsupplies⟩ :=
    h.member (config.stages + 2) .producer (seats_producer_iff.mpr rfl)
  exact ⟨stage, List.mem_of_getElem? hstage, p, hrole, hpid ▸ hp, hsupplies⟩

/-- A queue of the pipeline carries what is at its place in the ring. -/
theorem Circulates.queue (h : Circulates config kp r) {k : ℕ} (hk : k < config.stages + 2) :
    ∃ queue tokens, kp.channels.queues[objectAt k]? = some queue ∧
      (∀ i, r.itemAt config.stages (.queued k i) = tokens[i]?) ∧
      List.Forall₂ (fun m (x : Token) => m.capabilities = [x.cap]) queue tokens := by
  by_cases hle : k ≤ config.stages
  · obtain ⟨queue, hqueue, hcarries⟩ := h.queued k hle
    refine ⟨queue, (r.chan k).map Prod.snd, hqueue, fun i => ?_, ?_⟩
    · rw [itemAt, if_pos hle, List.getElem?_map]
    · exact List.forall₂_map_right_iff.mpr (hcarries.imp fun m x hm => hm.2)
  · obtain ⟨queue, hqueue, hcarries⟩ := h.returned
    obtain rfl : k = config.stages + 1 := by omega
    refine ⟨queue, r.returns, hqueue, fun i => ?_, hcarries⟩
    rw [itemAt, if_neg hle, if_pos rfl]

theorem Circulates.keeps_iff (h : Circulates config kp r) {spot : Spot} :
    kp.Keeps c spot ↔ ∃ x, r.itemAt config.stages spot = some x ∧ x.cap = c := by
  cases spot with
  | pooled i =>
    constructor
    · rintro ⟨stage, hstage, hrole, p, a, hp, ha, hc⟩
      obtain ⟨seat, p', hp', hmanned⟩ := h.crewed.of_mem hstage
      obtain rfl : p = p' := Option.some.inj (hp.symm.trans hp')
      have hseat := hmanned.role_eq
      rw [hrole] at hseat
      cases seat with
      | supervisor | sink | transformer j => cases hseat
      | producer =>
        obtain ⟨x, hx, hheld⟩ := exists_related hmanned.2.free ha
        exact ⟨x, hx, Option.some.inj (hheld.symm.trans hc)⟩
    · rintro ⟨x, hx, rfl⟩
      obtain ⟨stage, hstage, p, hrole, hp, hsupplies⟩ := h.crewed.producer
      obtain ⟨a, ha, hheld⟩ := exists_related hsupplies.free.flip hx
      exact ⟨stage, hstage, hrole, p, a, hp, ha, hheld⟩
  | queued k i =>
    constructor
    · rintro ⟨hk, queue, m, hqueue, hm, hc⟩
      rw [h.sameConfig] at hk
      obtain ⟨queue', tokens, hqueue', hitems, hcarries⟩ := h.queue hk
      obtain rfl : queue = queue' := Option.some.inj (hqueue.symm.trans hqueue')
      obtain ⟨x, hx, hcaps⟩ := exists_related hcarries hm
      rw [hcaps, List.mem_singleton] at hc
      exact ⟨x, (hitems i).trans hx, hc.symm⟩
    · rintro ⟨x, hx, rfl⟩
      have hk : k < config.stages + 2 := by
        by_cases hle : k ≤ config.stages
        · omega
        · have hlast := (returned_of_itemAt hle hx).1
          omega
      obtain ⟨queue, tokens, hqueue, hitems, hcarries⟩ := h.queue hk
      obtain ⟨m, hm, hcaps⟩ := exists_related hcarries.flip ((hitems i).symm.trans hx)
      exact ⟨h.sameConfig ▸ hk, queue, m, hqueue, hm, hcaps ▸ List.mem_singleton_self _⟩

theorem Circulates.one_spot (h : Circulates config kp r) {x : Token}
    (hx : x ∈ r.items config.stages) : ∃! spot, kp.Keeps x.cap spot := by
  obtain ⟨spot, hspot⟩ := exists_itemAt hx
  refine ⟨spot, h.keeps_iff.mpr ⟨x, hspot, rfl⟩, fun spot' hkeeps => ?_⟩
  obtain ⟨y, hy, hcap⟩ := h.keeps_iff.mp hkeeps
  exact itemAt_unique (f := fun x : Token => x.cap.object) h.stocked.apart hy hspot
    (congrArg Capability.object hcap)

theorem Circulates.conserved (h : Circulates config kp r)
    (hcounted : Counted config.stages config.batches.toNat config.pool r) :
    ∃ stage ∈ kp.stages, stage.role = .producer ∧ stage.freeRegions.length +
      ((List.range (config.stages + 2)).map kp.queueLength).sum = config.pool := by
  obtain ⟨stage, hstage, p, hrole, -, hsupplies⟩ := h.crewed.producer
  refine ⟨stage, hstage, hrole, ?_⟩
  have hchan : (List.range (config.stages + 1)).map kp.queueLength =
      (List.range (config.stages + 1)).map fun k => (r.chan k).length := by
    apply List.map_congr_left
    intro k hk
    obtain ⟨queue, hqueue, hcarries⟩ := h.queued k (Nat.le_of_lt_succ (List.mem_range.mp hk))
    rw [queueLength, hqueue, Option.getD_some, hcarries.length_eq]
  have hreturns : kp.queueLength (config.stages + 1) = r.returns.length := by
    obtain ⟨queue, hqueue, hcarries⟩ := h.returned
    rw [queueLength, hqueue, Option.getD_some, hcarries.length_eq]
  rw [List.range_succ (n := config.stages + 1), List.map_append, List.sum_append, hchan,
    ← length_flight_eq_sum, List.map_singleton, List.sum_singleton, hreturns,
    hsupplies.free.length_eq]
  have hcount := hcounted.count
  omega

/-- Of the capabilities minted for a region, the one its token has is the only one that works. -/
theorem Underway.liveFor (h : Underway config calls kp report t idle r) (hfits : config.Fits)
    {x : Token} (hx : x ∈ r.items config.stages) : kp.liveFor calls x.cap.object = [x.cap] := by
  obtain ⟨log, hplays, hminted⟩ := h.log
  obtain ⟨n, hn, hepoch, hhistory⟩ := hminted.history x hx
  have hlt : n < 2 ^ 64 := by
    have hticks := (h.inBounds hfits).ticks_lt
    omega
  have hcap : (⟨x.cap.object, fullRights, UInt64.ofNat n⟩ : Capability) = x.cap := by
    rw [← hepoch, ← h.ring.stocked.rights x hx]
  have hlive : ∀ i, i < n → ¬kp.kernel.Live ⟨x.cap.object, fullRights, UInt64.ofNat i⟩ := by
    intro i hi hold
    have hnew : kp.kernel.epochs[x.cap.object]? = some x.cap.epoch := h.ring.stocked.live x hx
    have hsame : some (UInt64.ofNat i) = some x.cap.epoch := hold.symm.trans hnew
    rw [hepoch] at hsame
    have heq := MachineCounters.ofNat_inj (by omega) hlt (Option.some.inj hsame)
    omega
  have hsplit : kp.liveFor calls x.cap.object =
      ((minted log).filter fun c => c.object = x.cap.object).filter fun c => kp.kernel.Live c := by
    rw [KernelPipeline.liveFor, hplays.events, List.filter_filter]
    apply List.filter_congr
    intro c _
    rw [Bool.decide_and, Bool.and_comm]
  rw [hsplit, hhistory, List.range_succ, List.map_append, List.filter_append, List.map_singleton, hcap,
    List.filter_singleton, List.filter_eq_nil_iff.mpr]
  · rw [decide_eq_true (h.ring.stocked.live x hx)]
    rfl
  · intro c hc
    obtain ⟨i, hi, rfl⟩ := List.mem_map.mp hc
    simpa using hlive i (List.mem_range.mp hi)

theorem Circulates.roles (h : Circulates config kp r) :
    kp.stages.map (fun stage => stage.role) = .supervisor :: .sink ::
      ((List.range config.stages).reverse.map Role.transformer ++ [.producer]) := by
  have hseats : (seats config.stages).map Seat.toRole = .supervisor :: .sink ::
      ((List.range config.stages).reverse.map Role.transformer ++ [.producer]) := by
    simp only [seats, List.map_cons, List.map_append, List.map_map, List.map_nil]
    rfl
  rw [← hseats]
  apply List.ext_getElem?
  intro j
  rw [List.getElem?_map, List.getElem?_map]
  rcases Nat.lt_or_ge j (seats config.stages).length with hlt | hge
  · obtain ⟨stage, p, hstage, -, -, hmanned⟩ :=
      h.crewed.member j (seats config.stages)[j] (List.getElem?_eq_getElem hlt)
    rw [hstage, List.getElem?_eq_getElem hlt, Option.map_some, Option.map_some, hmanned.role_eq]
  · rw [List.getElem?_eq_none hge, List.getElem?_eq_none (h.crewed.length ▸ hge)]
    rfl

theorem HoldsChannels.tableIs {p : Process} (h : HoldsChannels config p) (hfits : config.Fits) :
    p.TableIs ((List.range (config.stages + 2)).map fun k =>
      (handleTo k, ⟨objectAt k, fullRights, 0⟩)) := by
  rw [PipelineConfig.Fits] at hfits
  refine ⟨?_, fun a c => (h a c).trans ⟨fun hc => ?_, fun hmem => ?_⟩⟩
  · rw [List.map_map]
    refine List.Nodup.map_on (fun i hi j hj heq => ?_) List.nodup_range
    rw [List.mem_range] at hi hj
    exact (handleTo_inj (by omega) (by omega)).mp heq
  · obtain ⟨k, hk, rfl, rfl⟩ := hc
    exact List.mem_map.mpr ⟨k, List.mem_range.mpr hk, rfl⟩
  · obtain ⟨k, hk, heq⟩ := List.mem_map.mp hmem
    obtain ⟨rfl, rfl⟩ := Prod.mk.inj heq
    exact ⟨k, List.mem_range.mp hk, rfl, rfl⟩

theorem Relays.views {k : ℕ} {p : Process} (h : Relays r stage p k) :
    stage.Views p k (k + 1) [] := by
  have hnone : ∀ c ∈ ([] : List Capability), ∀ o, c.object ≠ o := by simp
  exact h.linked.views h.confined .nil List.nodup_nil (fun c hc => hnone c hc _)
    (fun c hc => hnone c hc _)

theorem Minted.mem_objects {log : List KernelEvent} (h : Minted config log r) {o : ObjectId} :
    (∃ x ∈ r.items config.stages, x.cap.object = o) ↔
      ∃ j, j < config.pool ∧ o = objectAt (config.stages + 2 + j) := by
  rw [← List.mem_map, h.objects.mem_iff, List.mem_map]
  constructor
  · rintro ⟨j, hj, rfl⟩
    exact ⟨j, List.mem_range.mp hj, rfl⟩
  · rintro ⟨j, hj, rfl⟩
    exact ⟨j, List.mem_range.mpr hj, rfl⟩

theorem Underway.privileged (h : Underway config calls kp report t idle r) (hfits : config.Fits)
    (hstage : stage ∈ kp.stages) :
    ∃ p, kp.sched.process stage.pid = some p ∧ kp.Privileged stage p stage.role := by
  obtain ⟨log, hplays, hminted⟩ := h.log
  obtain ⟨seat, p, hp, hmanned⟩ := h.ring.crewed.of_mem hstage
  refine ⟨p, hp, ?_⟩
  rw [hmanned.role_eq]
  cases seat with
  | supervisor =>
    have htable := hmanned.2.tableIs hfits
    rwa [← h.ring.sameConfig] at htable
  | transformer i => exact hmanned.2.views
  | sink =>
    have hviews := hmanned.2.views
    rwa [← h.ring.sameConfig] at hviews
  | producer =>
    obtain ⟨-, hsupplies⟩ := hmanned
    have hpool : ∀ x ∈ r.pool, x ∈ r.items config.stages := by
      intro x hx
      exact List.mem_append_right _ hx
    refine ⟨r.pool.map fun x => x.cap, ?_, fun c hc => ?_, ?_⟩
    · rw [List.length_map, hsupplies.free.length_eq]
    · obtain ⟨x, hx, rfl⟩ := List.mem_map.mp hc
      rw [h.ring.sameConfig]
      exact ⟨h.ring.stocked.live x (hpool x hx),
        hminted.mem_objects.mp ⟨x, hpool x hx, rfl⟩⟩
    · rw [h.ring.sameConfig]
      have happart := h.ring.stocked.apart
      rw [items, List.map_append] at happart
      have hbeyond : ∀ k, k < config.stages + 2 → ∀ c ∈ r.pool.map fun x => x.cap,
          c.object ≠ objectAt k := by
        intro k hk c hc
        obtain ⟨x, hx, rfl⟩ := List.mem_map.mp hc
        exact h.ring.stocked.beyond x (hpool x hx) k hk
      refine hsupplies.linked.views hsupplies.confined
        (List.forall₂_map_right_iff.mpr hsupplies.free) ?_ (hbeyond _ (by omega))
        (hbeyond 0 (by omega))
      rw [List.map_map]
      exact happart.of_append_right

/-- Custody and least privilege hold in every state between two turns. -/
theorem custody_between_turns (config : PipelineConfig) (hfits : config.Fits) :
    (config.Allocates → ∃ kp, KernelPipeline.new config = .ok kp) ∧
    ∀ calls streak kp report, Between config calls streak kp report →
      KernelPipeline.Custody config calls kp := by
  refine ⟨fun hallocates => ?_, fun calls streak kp report hbetween => ?_⟩
  · obtain ⟨kp, hnew, -⟩ := new_boots hfits hallocates
    exact ⟨kp, hnew⟩
  · obtain ⟨t, idle, r, h⟩ := hbetween.underway hfits
    obtain ⟨log, hplays, hminted⟩ := h.log
    refine ⟨h.ring.sameConfig, hplays.final, fun j hj => ?_,
      h.ring.conserved (h.inBounds hfits).counted, fun k hk => ?_, h.ring.roles, fun stage hstage =>
      h.privileged hfits hstage⟩
    · obtain ⟨x, hx, hobject⟩ := hminted.mem_objects.mpr ⟨j, hj, rfl⟩
      exact ⟨x.cap, hobject ▸ h.liveFor hfits hx, h.ring.stocked.rights x hx,
        ⟨x.bytes, h.ring.stocked.bytes x hx⟩, h.ring.one_spot hx⟩
    · obtain ⟨queue, tokens, hqueue, -, hcarries⟩ := h.ring.queue hk
      refine ⟨queue, hqueue, fun m hm => ?_⟩
      obtain ⟨i, hi⟩ := List.mem_iff_getElem?.mp hm
      obtain ⟨x, -, hcaps⟩ := exists_related hcarries hi
      exact ⟨x.cap, hcaps⟩

theorem custody_of_two_regions_after_boot :
    ∃ kp, KernelPipeline.new ⟨3, 2, 2, 1, 42, false⟩ = .ok kp ∧ KernelPipeline.Custody
      ⟨3, 2, 2, 1, 42, false⟩ (KernelPipeline.bootCalls ⟨3, 2, 2, 1, 42, false⟩) kp := by
  obtain ⟨hboot, hcustody⟩ := custody_between_turns ⟨3, 2, 2, 1, 42, false⟩
    (by unfold PipelineConfig.Fits; decide)
  obtain ⟨kp, hnew⟩ := hboot (Or.inr (by decide))
  exact ⟨kp, hnew, hcustody _ _ kp _ (.boot hnew)⟩

end Custody
end Muaddib
