import Muaddib.PipelineRounds

/-! # Booting the kernel pipeline

Boot creates the channels and the regions, grants them all to the supervisor, and spawns the crew
downstream first. What it leaves is a ring at rest. -/
namespace Muaddib
open RingPipelines KernelPipeline LabelledRuns SystemEntry

/-- The capability a registry gives out for the object it created as number `k`. -/
def freshCap (k : ℕ) : Capability := ⟨objectAt k, fullRights, 0⟩

def stageGrants (k : ℕ) : List Grant :=
  [.derive (handleTo k) .READ, .derive (handleTo (k + 1)) .WRITE]

def producerGrants (config : PipelineConfig) : List Grant :=
  .derive (handleTo 0) .WRITE :: .derive (handleTo (config.stages + 1)) .READ ::
    (List.range' (config.stages + 2) config.pool).map fun k => .move (handleTo k)

/-- The calls `new` makes, in order. -/
def KernelPipeline.bootCalls (config : PipelineConfig) : List Call :=
  .spawn [] :: (List.replicate (config.stages + 2) .newChannel ++
    (List.replicate config.pool (.newRegion config.regionSize) ++
    ((List.range (config.stages + 2 + config.pool)).map (fun k => .grant (pidAt 0) (freshCap k)) ++
    ((List.range (config.stages + 1)).reverse.map (fun k => .spawnChild (pidAt 0) (stageGrants k)) ++
    [.spawnChild (pidAt 0) (producerGrants config)]))))

/-- The table `m'` is `m` with `a` put in for the objects `i` to `i + n`. -/
structure Populated {α : Type} (i n : ℕ) (m m' : Std.ExtTreeMap ObjectId α) (a : α) : Prop where
  fresh : ∀ k, i ≤ k → k < i + n → m'[objectAt k]? = some a
  frame : ∀ o, (∀ k, i ≤ k → k < i + n → o ≠ objectAt k) → m'[o]? = m[o]?

theorem Populated.none {α : Type} (i : ℕ) (m : Std.ExtTreeMap ObjectId α) (a : α) :
    Populated i 0 m m a := ⟨fun k _ _ => by omega, fun _ _ => rfl⟩

theorem Populated.cons {α : Type} {i n : ℕ} {m m' : Std.ExtTreeMap ObjectId α} {a : α}
    (h : Populated (i + 1) n (m.insert (objectAt i) a) m' a) : Populated i (n + 1) m m' a := by
  refine ⟨fun k hik hk => ?_, fun o ho => ?_⟩
  · by_cases hlater : ∃ j, i + 1 ≤ j ∧ j < i + 1 + n ∧ objectAt k = objectAt j
    · obtain ⟨j, hj, hj', heq⟩ := hlater
      rw [heq, h.fresh j hj hj']
    · have hfirst : k = i := by
        by_contra hne
        exact hlater ⟨k, by omega, by omega, rfl⟩
      rw [h.frame _ fun j hj hj' heq => hlater ⟨j, hj, hj', heq⟩, hfirst,
        FiniteMaps.getElem?_insert, if_pos rfl]
  · rw [h.frame o fun j hj hj' => ho j (by omega) (by omega), FiniteMaps.getElem?_insert,
      if_neg (ho i le_rfl (by omega)).symm]

section Creation
variable {kernel : Kernel} {i : ℕ}

theorem newObject_eq (hid : kernel.nextId = UInt64.ofNat i) : kernel.newObject fullRights =
    (freshCap i, ⟨UInt64.ofNat (i + 1), kernel.epochs.insert (objectAt i) 0⟩) := by
  unfold Kernel.newObject
  rw [hid, UInt64.ofNat_add]
  rfl

theorem newChannels_eq (n : ℕ) (channels : ChannelRegistry) (sched : Scheduler)
    (memory : RegionRegistry) (hid : kernel.nextId = UInt64.ofNat i) :
    ∃ channels' kernel', newChannels n channels kernel =
        ((List.range' i n).map freshCap, channels', kernel') ∧
      kernel'.nextId = UInt64.ofNat (i + n) ∧
      Populated i n kernel.epochs kernel'.epochs 0 ∧ Populated i n channels.queues channels'.queues [] ∧
      Plays ⟨kernel, sched, channels, memory⟩ (List.replicate n .newChannel)
        ((List.range' i n).map fun k => .created (freshCap k)) ⟨kernel', sched, channels', memory⟩ := by
  induction n generalizing i kernel channels with
  | zero => exact ⟨channels, kernel, rfl, hid, .none .., .none .., .nil _⟩
  | succ n ih =>
    have hnew : channels.newChannel kernel = (freshCap i, ⟨channels.queues.insert (objectAt i) []⟩,
        ⟨UInt64.ofNat (i + 1), kernel.epochs.insert (objectAt i) 0⟩) := by
      simp only [ChannelRegistry.newChannel]
      rw [← fullRights, newObject_eq hid]
      rfl
    have hnext : (⟨UInt64.ofNat (i + 1), kernel.epochs.insert (objectAt i) 0⟩ : Kernel).nextId =
        UInt64.ofNat (i + 1) := rfl
    obtain ⟨channels', kernel', hrest, hnext', hepochs, hqueues, hplays⟩ := ih ⟨channels.queues.insert (objectAt i) []⟩ hnext
    refine ⟨channels', kernel', ?_, ?_, hepochs.cons, hqueues.cons, ?_⟩
    · simp only [newChannels, hnew, hrest, List.range'_succ, List.map_cons]
    · rw [hnext', Nat.add_right_comm, Nat.add_assoc]
    · rw [List.replicate_succ, List.range'_succ, List.map_cons]
      refine (Plays.single (.ok (.capability (freshCap i))) ?_ rfl).cons hplays
      simp only [System.step, hnew]

theorem newRegions_eq {size n : ℕ} (hsize : n = 0 ∨ size < 2 ^ 63) (memory : RegionRegistry)
    (sched : Scheduler) (channels : ChannelRegistry) (hid : kernel.nextId = UInt64.ofNat i) :
    ∃ memory' kernel', newRegions size n memory kernel =
        .ok ((List.range' i n).map freshCap, memory', kernel') ∧
      kernel'.nextId = UInt64.ofNat (i + n) ∧ Populated i n kernel.epochs kernel'.epochs 0 ∧
      Populated i n memory.regions memory'.regions (List.replicate size 0) ∧
      Plays ⟨kernel, sched, channels, memory⟩ (List.replicate n (.newRegion size))
        ((List.range' i n).map fun k => .created (freshCap k)) ⟨kernel', sched, channels, memory'⟩ := by
  induction n generalizing i kernel memory with
  | zero => exact ⟨memory, kernel, rfl, hid, .none .., .none .., .nil _⟩
  | succ n ih =>
    have hsize : size < 2 ^ 63 := hsize.resolve_left n.succ_ne_zero
    have hnew : memory.newRegion kernel size = (.ok (freshCap i),
        ⟨memory.regions.insert (objectAt i) (List.replicate size 0)⟩,
        ⟨UInt64.ofNat (i + 1), kernel.epochs.insert (objectAt i) 0⟩) := by
      rw [RegionRegistry.newRegion_of_lt hsize, newObject_eq hid, hid]
      rfl
    have hnext : (⟨UInt64.ofNat (i + 1), kernel.epochs.insert (objectAt i) 0⟩ : Kernel).nextId =
        UInt64.ofNat (i + 1) := rfl
    obtain ⟨memory', kernel', hrest, hnext', hepochs, hregions, hplays⟩ :=
      ih (Or.inr hsize) ⟨memory.regions.insert (objectAt i) (List.replicate size 0)⟩ hnext
    refine ⟨memory', kernel', ?_, ?_, hepochs.cons, hregions.cons, ?_⟩
    · simp only [newRegions, hnew, hrest, List.range'_succ, List.map_cons, bind, Except.bind, pure,
        Except.pure]
    · rw [hnext', Nat.add_right_comm, Nat.add_assoc]
    · rw [List.replicate_succ, List.range'_succ, List.map_cons]
      refine (Plays.single (.ok (.capability (freshCap i))) ?_ rfl).cons hplays
      simp only [System.step, hnew, stopping]

theorem newChannels_succ (n : ℕ) (channels : ChannelRegistry) (kernel : Kernel) :
    newChannels (n + 1) channels kernel =
      let (caps, channels, kernel) := newChannels n channels kernel
      let (cap, channels, kernel) := channels.newChannel kernel
      (caps ++ [cap], channels, kernel) := by
  induction n generalizing channels kernel with
  | zero => rfl
  | succ n ih =>
    have hlater := ih (channels.newChannel kernel).2.1 (channels.newChannel kernel).2.2
    rw [newChannels]
    simp only [hlater]
    rfl

theorem plays_grants (pid : ProcessId) (caps : List Capability) {s : System} {p : Process}
    (hp : s.sched.process pid = some p) :
    Plays s (caps.map (.grant pid)) [] (s.setProcess pid (p.grantAll caps).2) := by
  induction caps generalizing s p with
  | nil => exact (Plays.nil s).trans_eq (System.setProcess_self hp).symm
  | cons cap caps ih =>
    have hrest := ih (s := s.setProcess pid (p.grant cap).2) (setProcess_process_self _)
    rw [List.map_cons]
    refine (Plays.single (.ok (.handle (p.grant cap).1)) ?_ rfl).cons (hrest.trans_eq ?_)
    · simp only [System.step, System.withProcess, hp]
    · rw [Process.grantAll_cons]
      simp only [System.setProcess, setProcess_setProcess]

end Creation

section Spawning
variable {sched : Scheduler} {parent : ProcessId} {p : Process} {batch : List (Grant × Capability)}

theorem lists_newborn (id : ProcessId) (stamp : EventStamp) {caps : List Capability}
    (hn : caps.length ≤ 2 ^ 32) : (Scheduler.newborn id stamp caps).Lists caps :=
  ((Process.Lists.new id).recordReceive stamp).grantAll (by simpa using hn)

theorem plays_spawnChild {s : System} (hp : s.sched.process parent = some p)
    (hb : Resolved s.kernel p batch) : Plays s [.spawnChild parent (batch.map Prod.fst)]
      (batchEvents p (batch.map Prod.fst))
      { s with sched := s.sched.recruit parent p batch, kernel := moveObjects s.kernel batch } := by
  have hspawn := Scheduler.spawnChild_of_resolved hp hb
  refine Plays.single (.ok (.process ⟨s.sched.nextProcessId⟩)) ?_ ?_
  · simp only [System.step, hspawn, stopping]
    rfl
  · simp only [kernelEvents, hp]

theorem spawnChild_eq {crew : Crew} (hp : crew.sched.process parent = some p)
    (hb : Resolved crew.kernel p batch) :
    spawnChild crew parent (batch.map Prod.fst) = .ok (⟨crew.sched.nextProcessId⟩,
      ⟨crew.sched.recruit parent p batch, moveObjects crew.kernel batch, crew.stages⟩) := by
  simp only [spawnChild, Scheduler.spawnChild_of_resolved hp hb]
  rfl

/-- The views a batch derives, with the handles of the channels they are views of. -/
def views (a b : ℕ) (r r' : Rights) : List (Grant × Capability) :=
  [(.derive (handleTo a) r, ⟨objectAt a, r, 0⟩), (.derive (handleTo b) r', ⟨objectAt b, r', 0⟩)]

theorem resolveGrant_derive {kernel : Kernel} {k : ℕ} {r : Rights}
    (ha : p.capability (handleTo k) = some (freshCap k)) (hlive : kernel.Live (freshCap k))
    (hr : fullRights.contains r = true) :
    resolveGrant kernel p (.derive (handleTo k) r) = .ok ⟨objectAt k, r, 0⟩ :=
  resolveGrant_derive_iff.mpr ⟨freshCap k, ha, Kernel.derive_eq_ok_iff.mpr
    ⟨hlive, (by decide : fullRights.contains .GRANT = true), hr, rfl⟩⟩

end Spawning

/-- The tokens of a pipeline at rest: every region was moved once, to the producer. -/
def bootTokens (config : PipelineConfig) : List Token :=
  (List.range' (config.stages + 2) config.pool).map fun k =>
    ⟨⟨objectAt k, fullRights, 1⟩, List.replicate config.regionSize 0⟩

/-- The capabilities of the supervisor before it spawns the producer. -/
def supervised (config : PipelineConfig) : List Capability :=
  (List.range (config.stages + 2 + config.pool)).map freshCap

/-- The supervisor has spawned the first `m` of the crew, itself counted. -/
structure Enlisting (config : PipelineConfig) (channels : ChannelRegistry) (memory : RegionRegistry)
    (m : ℕ) (calls : List Call) (crew : Crew) (p : Process) : Prop where
  supervisor : crew.sched.process (pidAt 0) = some p
  table : p.Lists (supervised config)
  epochs : ∀ k, k < config.stages + 2 + config.pool → crew.kernel.epochs[objectAt k]? = some 0
  length : crew.stages.length = m
  first : crew.stages[0]? = some ⟨pidAt 0, .supervisor, none, none, [], 0⟩
  member : ∀ j seat, 0 < j → j < m → (seats config.stages)[j]? = some seat → ∃ stage q,
    crew.stages[j]? = some stage ∧ stage.pid = pidAt j ∧ crew.sched.process (pidAt j) = some q ∧
      Manned config (Carousel.start (bootTokens config)) stage q seat
  next : crew.sched.nextProcessId = UInt64.ofNat m
  ready : crew.sched.readyQueue = (List.range m).map pidAt
  clocks : ∀ id q, crew.sched.process id = some q → q.clock.vector.Below (2 * (m - 1))
  log : ∃ log, Plays .new calls log ⟨crew.kernel, crew.sched, channels, memory⟩ ∧
    ∀ k, config.stages + 2 ≤ k → k < config.stages + 2 + config.pool →
      (minted log).filter (fun c => c.object = objectAt k) = [freshCap k]

theorem seats_relay {stages k m : ℕ} (hm : 0 < m) (hk : k + m = stages + 1) :
    ∃ seat, (seats stages)[m]? = some seat ∧ seat ≠ .supervisor ∧ seat ≠ .producer ∧
      ∀ (config : PipelineConfig) r stage p, config.stages = stages →
        stage.role = roleAt stages k → Relays r stage p k → Manned config r stage p seat := by
  obtain ⟨m, rfl⟩ : ∃ n, m = n + 1 := ⟨m - 1, by omega⟩
  cases m with
  | zero =>
    obtain rfl : k = stages := by omega
    refine ⟨.sink, rfl, by simp, by simp, ?_⟩
    rintro config r stage p rfl hrole hrelays
    rw [roleAt, if_neg (Nat.lt_irrefl _)] at hrole
    exact ⟨hrole, hrelays⟩
  | succ m =>
    refine ⟨.transformer k, ?_, by simp, by simp, ?_⟩
    · have hlen : m < ((List.range stages).reverse.map Seat.transformer).length := by
        simp
        omega
      simp only [seats, List.getElem?_cons_succ]
      rw [List.getElem?_append_left hlen, List.getElem?_map, List.getElem?_reverse (by simp; omega),
        List.length_range, List.getElem?_range (by omega), Option.map_some]
      congr 2
      omega
    · rintro config r stage p rfl hrole hrelays
      rw [roleAt, if_pos (by omega)] at hrole
      exact ⟨hrole, hrelays⟩

section Crews
variable {config : PipelineConfig} {channels : ChannelRegistry} {memory : RegionRegistry} {m : ℕ}
  {calls : List Call} {crew : Crew} {p : Process}

theorem Enlisting.held (h : Enlisting config channels memory m calls crew p) {k : ℕ}
    (hk : k < config.stages + 2 + config.pool) : p.capability (handleTo k) = some (freshCap k) := by
  refine h.table.held k _ ?_
  rw [supervised, List.getElem?_map, List.getElem?_range hk, Option.map_some]

theorem filter_views {j k k' : ℕ} (hj : j < 2 ^ 64) (hk : k < j) (hk' : k' < j) (c c' : Capability)
    (r r' : Rights) : (minted [.derived c ⟨objectAt k, r, 0⟩, .derived c' ⟨objectAt k', r', 0⟩]).filter
      (fun c => c.object = objectAt j) = [] := by
  have hne : ∀ i, i < j → objectAt i ≠ objectAt j := by
    intro i hi
    rw [Ne, objectAt_inj (by omega) hj]
    omega
  simp [minted, KernelEvent.minted, hne k hk, hne k' hk']

/-- What a spawn does to the scheduler: process `m` is new, and the supervisor is at the parting. -/
structure Recruited (m : ℕ) (sched sched' : Scheduler) (parent child : Process) : Prop where
  child : sched'.process (pidAt m) = some child
  parent : sched'.process (pidAt 0) = some parent
  others : ∀ j, 0 < j → j < m → sched'.process (pidAt j) = sched.process (pidAt j)
  next : sched'.nextProcessId = UInt64.ofNat (m + 1)
  ready : sched'.readyQueue = (List.range (m + 1)).map pidAt
  clocks : ∀ id q, sched'.process id = some q → q.clock.vector.Below (2 * m)

theorem Enlisting.recruit (h : Enlisting config channels memory m calls crew p) (hm : 0 < m)
    (hlt : m < 2 ^ 32) (batch : List (Grant × Capability)) :
    Recruited m crew.sched (crew.sched.recruit (pidAt 0) p batch) (p.depart batch)
      (Scheduler.newborn (pidAt m) p.clock.sendEvent.1 (batch.map deliver)) := by
  have hpid : (⟨crew.sched.nextProcessId⟩ : ProcessId) = pidAt m := by rw [h.next]; rfl
  have hne : ∀ i j, i ≤ m → j ≤ m → i ≠ j → pidAt i ≠ pidAt j := by
    intro i j hi hj hij
    rw [Ne, pidAt_inj (by omega) (by omega)]
    exact hij
  refine ⟨?_, ?_, fun j hj hjm => ?_, ?_, ?_, fun id q hq => ?_⟩
  · rw [process_recruit, hpid, if_pos rfl]
  · rw [process_recruit, hpid, if_neg (hne _ _ le_rfl hm.le hm.ne'), if_pos rfl]
  · rw [process_recruit, hpid, if_neg (hne _ _ le_rfl hjm.le hjm.ne'),
      if_neg (hne _ _ hm.le hjm.le hj.ne)]
  · change crew.sched.nextProcessId + 1 = _
    rw [h.next, UInt64.ofNat_add]
    rfl
  · change crew.sched.readyQueue ++ [(⟨crew.sched.nextProcessId⟩ : ProcessId)] = _
    rw [hpid, h.ready, List.range_succ, List.map_append]
    rfl
  · exact (below_recruit h.clocks h.supervisor (by omega) id q hq).mono (by omega)

theorem Enlisting.resolve (h : Enlisting config channels memory m calls crew p) {k : ℕ}
    (hk : k < config.stages + 2 + config.pool) {r : Rights} (hr : fullRights.contains r = true) :
    resolveGrant crew.kernel p (.derive (handleTo k) r) = .ok ⟨objectAt k, r, 0⟩ :=
  resolveGrant_derive (h.held hk) (h.epochs k hk) hr

theorem flight_start {α : Type} (pool : List α) (k : ℕ) :
    Carousel.flight (Carousel.start pool : Carousel α UInt64).chan k = [] := by
  rw [List.eq_nil_iff_forall_not_mem]
  intro x hx
  obtain ⟨i, -, hi⟩ := mem_flight.mp hx
  cases hi

theorem Enlisting.stage (h : Enlisting config channels memory m calls crew p)
    (hfits : config.Fits) (hm : 0 < m) {k : ℕ} (hk : k + m = config.stages + 1) :
    ∃ crew' p', spawnStage crew (pidAt 0) (roleAt config.stages k) (handleTo k) (handleTo (k + 1)) =
        .ok crew' ∧ Enlisting config channels memory (m + 1)
          (calls ++ [.spawnChild (pidAt 0) (stageGrants k)]) crew' p' := by
  rw [PipelineConfig.Fits] at hfits
  obtain ⟨seat, hseat, -, -, hmanned⟩ := seats_relay hm hk
  obtain ⟨batch, hbatch⟩ : ∃ batch, batch = views k (k + 1) .READ .WRITE := ⟨_, rfl⟩
  have hresolved : Resolved crew.kernel p batch := by
    rw [hbatch]
    refine ⟨?_, List.nodup_nil, by simp [views, Grant.isMove]⟩
    intro x hx
    rcases List.mem_cons.mp hx with rfl | hx
    · exact h.resolve (by omega) (by decide)
    · obtain rfl := List.mem_singleton.mp hx
      exact h.resolve (by omega) (by decide)
  have hgrants : batch.map Prod.fst = stageGrants k := by rw [hbatch]; rfl
  have hkernel : moveObjects crew.kernel batch = crew.kernel := by rw [hbatch]; rfl
  have hrecruit := h.recruit hm (by omega) batch
  obtain ⟨child, hchild⟩ : ∃ q, q = Scheduler.newborn (pidAt m) p.clock.sendEvent.1
    (batch.map deliver) := ⟨_, rfl⟩
  rw [← hchild] at hrecruit
  have hlists : child.Lists [⟨objectAt k, .READ, 0⟩, ⟨objectAt (k + 1), .WRITE, 0⟩] := by
    rw [hchild, hbatch]
    exact lists_newborn _ _ (by simp [views])
  have hhandles : child.handles = [handleTo 0, handleTo 1] := hlists.handles (by simp)
  have hspawn := spawnChild_eq h.supervisor hresolved
  have hpid : (⟨crew.sched.nextProcessId⟩ : ProcessId) = pidAt m := by rw [h.next]; rfl
  rw [hpid, hgrants, hkernel] at hspawn
  refine ⟨⟨crew.sched.recruit (pidAt 0) p batch, crew.kernel, crew.stages ++
    [⟨pidAt m, roleAt config.stages k, some (handleTo 0), some (handleTo 1), [], 0⟩]⟩,
    p.depart batch, ?_, hrecruit.parent, ⟨h.table.upto.depart _, fun i c hi => ?_⟩, h.epochs, ?_, ?_,
    ?_, hrecruit.next, hrecruit.ready, hrecruit.clocks, ?_⟩
  · change (spawnChild crew (pidAt 0) (stageGrants k) >>= _) = _
    rw [hspawn]
    simp only [bind, Except.bind, sortedHandles, hrecruit.child, hhandles, handleAt, expect,
      List.getElem?_cons_zero, List.getElem?_cons_succ, pure, Except.pure]
  · rw [Process.capability_depart, if_neg (by simp [hbatch, leavingHandles, views, Grant.leaving])]
    exact h.table.held i c hi
  · rw [List.length_append, h.length]
    rfl
  · rw [List.getElem?_append_left (by rw [h.length]; exact hm)]
    exact h.first
  · intro j seat' hj hlt hget
    rcases Nat.lt_succ_iff_lt_or_eq.mp hlt with hlt | rfl
    · obtain ⟨stage, q, hstage, hstagePid, hq, hold⟩ := h.member j seat' hj hlt hget
      refine ⟨stage, q, ?_, hstagePid, (hrecruit.others j hj hlt).trans hq, hold⟩
      rw [List.getElem?_append_left (by rw [h.length]; exact hlt)]
      exact hstage
    · obtain rfl : seat = seat' := Option.some.inj (hseat.symm.trans hget)
      refine ⟨⟨pidAt j, roleAt config.stages k, some (handleTo 0), some (handleTo 1), [], 0⟩, child,
        ?_, rfl, hrecruit.child, hmanned _ _ _ _ rfl rfl ⟨⟨⟨_, rfl, hlists.held 0 _ rfl⟩,
          ⟨_, rfl, hlists.held 1 _ rfl⟩⟩, fun a c ha => ?_, 0, ?_, hlists.upto⟩⟩
      · rw [← h.length, List.getElem?_concat_length]
      · obtain ⟨i, rfl, hi⟩ := hlists.capability_iff.mp ha
        cases i with
        | zero => exact Or.inl rfl
        | succ i =>
          cases i with
          | zero => exact Or.inr (Or.inl rfl)
          | succ i => cases hi
      · rw [flight_start]
        exact Nat.zero_le _
  · obtain ⟨log, hplays, hlog⟩ := h.log
    have hspawned := plays_spawnChild (s := ⟨crew.kernel, crew.sched, channels, memory⟩)
      h.supervisor hresolved
    rw [hgrants, hkernel] at hspawned
    refine ⟨_, hplays.append hspawned, fun j hj hj' => ?_⟩
    have hevents : batchEvents p (stageGrants k) =
        [.derived (freshCap k) ⟨objectAt k, .READ, 0⟩,
          .derived (freshCap (k + 1)) ⟨objectAt (k + 1), .WRITE, 0⟩] := by
      simp [batchEvents, stageGrants, deriveEvent, moveEvent, h.held (by omega : k < _),
        h.held (by omega : k + 1 < _), freshCap]
    rw [hevents, minted, List.filterMap_append, List.filter_append]
    change (minted log).filter _ ++ (minted _).filter _ = _
    rw [hlog j hj hj', filter_views (by omega) (by omega) (by omega), List.append_nil]

theorem handleAt_range' {n i : ℕ} (hi : i < n) :
    handleAt ((List.range' 0 n).map handleTo) i = .ok (handleTo i) := by
  rw [handleAt, List.getElem?_map, List.getElem?_range' (by simpa using hi), Option.map_some]
  simp only [expect]
  congr 2
  omega

theorem Enlisting.transformers (hfits : config.Fits) (i : ℕ)
    (h : Enlisting config channels memory m calls crew p) (hm : 1 < m)
    (hi : i + m = config.stages + 2) :
    ∃ crew' p', spawnTransformers (pidAt 0) ((List.range' 0 (config.stages + 1)).map handleTo) i crew =
        .ok crew' ∧ Enlisting config channels memory (config.stages + 2)
          (calls ++ (List.range i).reverse.map fun k => .spawnChild (pidAt 0) (stageGrants k))
          crew' p' := by
  induction i generalizing m calls crew p with
  | zero =>
    obtain rfl : m = config.stages + 2 := by omega
    exact ⟨crew, p, rfl, by simpa using h⟩
  | succ i ih =>
    obtain ⟨crew₁, p₁, hspawn, hnext⟩ := h.stage hfits (by omega) (k := i) (by omega)
    obtain ⟨crew', p', hrest, hlast⟩ := ih hnext (by omega) (by omega)
    have hrole : roleAt config.stages i = .transformer i := by rw [roleAt, if_pos (by omega)]
    rw [hrole] at hspawn
    refine ⟨crew', p', ?_, ?_⟩
    · simp only [spawnTransformers, handleAt_range' (by omega : i < config.stages + 1),
        handleAt_range' (by omega : i + 1 < config.stages + 1), bind, Except.bind, hspawn]
      exact hrest
    · rw [List.range_succ, List.reverse_append, List.reverse_singleton, List.singleton_append,
        List.map_cons]
      rw [List.append_assoc] at hlast
      exact hlast

def producerBatch (config : PipelineConfig) : List (Grant × Capability) :=
  views 0 (config.stages + 1) .WRITE .READ ++
    (List.range' (config.stages + 2) config.pool).map fun k => (.move (handleTo k), freshCap k)

theorem producerBatch_grants : (producerBatch config).map Prod.fst = producerGrants config := by
  simp [producerBatch, producerGrants, views, Function.comp_def]

theorem producerBatch_leaving : leavingHandles (producerBatch config) =
    (List.range' (config.stages + 2) config.pool).map handleTo := by
  simp only [leavingHandles, producerBatch_grants, producerGrants, Grant.leaving,
    List.filterMap_cons, List.filterMap_map]
  exact congrFun (List.filterMap_eq_map (f := handleTo)) _

def producerCaps (config : PipelineConfig) : List Capability :=
  ⟨objectAt 0, .WRITE, 0⟩ :: ⟨objectAt (config.stages + 1), .READ, 0⟩ ::
    (bootTokens config).map Token.cap

theorem producerBatch_deliver : (producerBatch config).map deliver = producerCaps config := by
  simp only [producerBatch, views, producerCaps, bootTokens, List.map_cons, List.map_map,
    List.cons_append, List.nil_append]
  rfl

theorem Enlisting.resolved_producer (h : Enlisting config channels memory m calls crew p)
    (hfits : config.Fits) : Resolved crew.kernel p (producerBatch config) := by
  rw [PipelineConfig.Fits] at hfits
  have hobjects : ∀ i k, i < k → k < config.stages + 2 + config.pool → objectAt i ≠ objectAt k := by
    intro i k hi hk
    rw [Ne, objectAt_inj (by omega) (by omega)]
    omega
  refine ⟨fun x hx => ?_, ?_, ?_⟩
  · rcases List.mem_append.mp hx with hx | hx
    · rcases List.mem_cons.mp hx with rfl | hx
      · exact h.resolve (by omega) (by decide)
      · obtain rfl := List.mem_singleton.mp hx
        exact h.resolve (by omega) (by decide)
    · obtain ⟨k, hk, rfl⟩ := List.mem_map.mp hx
      rw [List.mem_range'_1] at hk
      exact resolveGrant_move_iff.mpr ⟨h.held hk.2, h.epochs k hk.2,
        (by decide : fullRights.contains .DESTROY = true)⟩
  · rw [producerBatch_leaving]
    refine List.Nodup.map_on (fun i hi j hj hij => ?_) List.nodup_range'
    rw [List.mem_range'_1] at hi hj
    exact (handleTo_inj (by omega) (by omega)).mp hij
  · refine List.pairwise_append.mpr ⟨by simp [views, Grant.isMove], ?_, ?_⟩
    · rw [List.pairwise_map]
      refine (List.pairwise_lt_range' 1).imp_of_mem fun {i k} _ hk hik _ => ?_
      exact hobjects i k hik (List.mem_range'_1.mp hk).2
    · intro x hx y hy _
      obtain ⟨k, hk, rfl⟩ := List.mem_map.mp hy
      rw [List.mem_range'_1] at hk
      rcases List.mem_cons.mp hx with rfl | hx
      · exact hobjects 0 k (by omega) hk.2
      · obtain rfl := List.mem_singleton.mp hx
        exact hobjects (config.stages + 1) k (by omega) hk.2

theorem mem_bootTokens {x : Token} : x ∈ bootTokens config ↔ ∃ k, config.stages + 2 ≤ k ∧
    k < config.stages + 2 + config.pool ∧
    x = ⟨⟨objectAt k, fullRights, 1⟩, List.replicate config.regionSize 0⟩ := by
  simp only [bootTokens, List.mem_map, List.mem_range'_1, and_assoc, eq_comm (a := x)]

theorem items_boot : (Carousel.start (bootTokens config) : Carousel Token UInt64).items config.stages =
    bootTokens config := by
  rw [Carousel.items, flight_start]
  rfl

/-- The moves to the producer leave the regions in their second epoch, and the channels alone. -/
theorem Enlisting.stocked (h : Enlisting config channels memory m calls crew p)
    (hfits : config.Fits) (hmemory : ∀ k, config.stages + 2 ≤ k →
      k < config.stages + 2 + config.pool →
        memory.regions[objectAt k]? = some (List.replicate config.regionSize 0)) :
    Stocked (config.stages + 2) (moveObjects crew.kernel (producerBatch config)) memory
      (bootTokens config) := by
  have hresolved := h.resolved_producer hfits
  rw [PipelineConfig.Fits] at hfits
  have hobjects : ∀ i k, i < config.stages + 2 → config.stages + 2 ≤ k →
      k < config.stages + 2 + config.pool → objectAt k ≠ objectAt i := by
    intro i k hi hk hk'
    rw [Ne, objectAt_inj (by omega) (by omega)]
    omega
  refine ⟨fun x hx => ?_, fun x hx => ?_, fun x hx => ?_, ?_, fun k hk => ?_, fun x hx i hi => ?_⟩
  · obtain ⟨k, hk, hk', rfl⟩ := mem_bootTokens.mp hx
    have hmem : ((.move (handleTo k), freshCap k) : Grant × Capability) ∈ producerBatch config :=
      List.mem_append_right _ (List.mem_map_of_mem (List.mem_range'_1.mpr ⟨hk, hk'⟩))
    exact moveObjects_epochs_of_mem hresolved.movable hmem rfl
  · obtain ⟨k, -, -, rfl⟩ := mem_bootTokens.mp hx
    rfl
  · obtain ⟨k, hk, hk', rfl⟩ := mem_bootTokens.mp hx
    exact hmemory k hk hk'
  · rw [bootTokens, List.map_map]
    refine List.Nodup.map_on (fun i hi j hj hij => ?_) List.nodup_range'
    rw [List.mem_range'_1] at hi hj
    exact (objectAt_inj (by omega) (by omega)).mp hij
  · rw [moveObjects_epochs_of_notMem, h.epochs k (by omega)]
    intro x hx hmove
    rcases List.mem_append.mp hx with hx | hx
    · rcases List.mem_cons.mp hx with rfl | hx
      · cases hmove
      · obtain rfl := List.mem_singleton.mp hx
        cases hmove
    · obtain ⟨j, hj, rfl⟩ := List.mem_map.mp hx
      rw [List.mem_range'_1] at hj
      exact hobjects k j hk hj.1 hj.2
  · obtain ⟨k, hk, hk', rfl⟩ := mem_bootTokens.mp hx
    exact hobjects i k hi hk hk'

/-- One capability of a list is for object `k`. -/
theorem filter_range' (a n k : ℕ) (hk : a ≤ k) (hk' : k < a + n) (hn : a + n ≤ 2 ^ 64)
    (f : ℕ → Capability) (hf : ∀ i, (f i).object = objectAt i) :
    ((List.range' a n).map f).filter (fun c => c.object = objectAt k) = [f k] := by
  have hsame : (List.range' a n).filter (fun i => (f i).object = objectAt k) =
      (List.range' a n).filter (· = k) := by
    refine List.filter_congr fun i hi => ?_
    rw [List.mem_range'_1] at hi
    rw [hf, decide_eq_decide, objectAt_inj (by omega) (by omega)]
  have hcount : (List.range' a n).count k = 1 :=
    List.count_eq_one_of_mem List.nodup_range' (List.mem_range'_1.mpr ⟨hk, hk'⟩)
  rw [List.filter_map, Function.comp_def, hsame, List.filter_eq, hcount]
  rfl

theorem Enlisting.producer_events (h : Enlisting config channels memory m calls crew p) :
    batchEvents p (producerGrants config) =
      .derived (freshCap 0) ⟨objectAt 0, .WRITE, 0⟩ ::
      .derived (freshCap (config.stages + 1)) ⟨objectAt (config.stages + 1), .READ, 0⟩ ::
      (List.range' (config.stages + 2) config.pool).map fun k =>
        .reissued (freshCap k) ⟨objectAt k, fullRights, 1⟩ := by
  have hmoves : (List.range' (config.stages + 2) config.pool).filterMap
      (moveEvent p ∘ fun k => .move (handleTo k)) =
        (List.range' (config.stages + 2) config.pool).map fun k =>
          .reissued (freshCap k) ⟨objectAt k, fullRights, 1⟩ := by
    rw [← List.filterMap_eq_map]
    refine List.filterMap_congr fun k hk => ?_
    rw [List.mem_range'_1] at hk
    simp only [Function.comp_apply, moveEvent, h.held hk.2, Option.map_some]
    rfl
  have hnone : (List.range' (config.stages + 2) config.pool).filterMap
      (deriveEvent p ∘ fun k => .move (handleTo k)) = [] := by
    rw [List.filterMap_eq_nil_iff]
    exact fun _ _ => rfl
  simp only [batchEvents, producerGrants, List.filterMap_cons, List.filterMap_map, deriveEvent,
    moveEvent, h.held (by omega : 0 < _), h.held (by omega : config.stages + 1 < _),
    Option.map_some]
  rw [hnone, hmoves]
  rfl

theorem Enlisting.minted (h : Enlisting config channels memory m calls crew p)
    (hfits : config.Fits) {log : List KernelEvent}
    (hlog : ∀ k, config.stages + 2 ≤ k → k < config.stages + 2 + config.pool →
      (minted log).filter (fun c => c.object = objectAt k) = [freshCap k]) :
    Minted config (log ++ batchEvents p (producerGrants config))
      (Carousel.start (bootTokens config)) := by
  rw [PipelineConfig.Fits] at hfits
  refine ⟨?_, fun x hx => ⟨1, le_rfl, ?_, ?_⟩⟩
  · rw [items_boot, bootTokens, List.map_map, List.range'_eq_map_range, List.map_map]
    rfl
  · rw [items_boot] at hx
    obtain ⟨k, -, -, rfl⟩ := mem_bootTokens.mp hx
    rfl
  · rw [items_boot] at hx
    obtain ⟨k, hk, hk', rfl⟩ := mem_bootTokens.mp hx
    have hviews := filter_views (j := k) (by omega) (by omega : 0 < k)
      (by omega : config.stages + 1 < k) (freshCap 0) (freshCap (config.stages + 1)) .WRITE .READ
    have hreissued := filter_range' (config.stages + 2) config.pool k hk hk' (by omega)
      (fun k => ⟨objectAt k, fullRights, 1⟩) fun _ => rfl
    have hmoves : Muaddib.minted ((List.range' (config.stages + 2) config.pool).map fun k =>
        .reissued (freshCap k) ⟨objectAt k, fullRights, 1⟩) =
        (List.range' (config.stages + 2) config.pool).map fun k => ⟨objectAt k, fullRights, 1⟩ := by
      rw [Muaddib.minted, List.filterMap_map]
      exact congrFun (List.filterMap_eq_map
        (f := fun k => (⟨objectAt k, fullRights, 1⟩ : Capability))) _
    rw [h.producer_events]
    change (Muaddib.minted (log ++ ([_, _] ++ List.map _ _))).filter _ = _
    rw [Muaddib.minted, List.filterMap_append, List.filterMap_append, List.filter_append,
      List.filter_append]
    change (Muaddib.minted log).filter _ ++
      ((Muaddib.minted [_, _]).filter _ ++ (Muaddib.minted _).filter _) = _
    rw [hlog k hk hk', hviews, hmoves, hreissued]
    rfl

theorem chronicle_boot {sched : Scheduler} (hqueues : ∀ k, k < config.stages + 2 →
    channels.queues[objectAt k]? = some [])
    (hclocks : ∀ id q, sched.process id = some q →
      q.clock.vector.Below (2 * (config.stages + 2))) :
    Chronicle config channels sched [] (Carousel.start (bootTokens config))
      ⟨fun _ => [], fun _ => []⟩ := by
  have hwaiting : ∀ k, k < config.stages + 2 → channels.waiting k = [] := fun k hk => by
    rw [ChannelRegistry.waiting_of (hqueues k hk), List.map_nil]
  have hprecede : ∀ d, Precede d [] [] := by
    intro d b s t hs
    cases hs
  have htaken : ∀ k, (Carousel.start (bootTokens config) : Carousel Token UInt64).taken k = 0 :=
    fun k => Nat.zero_sub _
  refine ⟨⟨rfl, fun _ _ => rfl, fun _ _ => rfl⟩, ⟨rfl, fun k _ => (htaken k).symm,
    fun k _ => (htaken k).symm, fun _ _ => hprecede 0, fun _ _ => hprecede 0, hprecede _⟩,
    fun k hk => ?_, ⟨0, le_rfl, ?_, fun _ _ s hs => by cases hs⟩,
    2 * (config.stages + 2), le_rfl, fun k hk s hs => ?_, hclocks⟩
  · rw [hwaiting k (by omega), List.drop_nil]
  · rw [hwaiting _ (by omega), List.drop_nil]
  · rw [hwaiting k (by omega)] at hs
    cases hs

/-- The supervisor is left with the channels when the regions have gone to the producer. -/
theorem Enlisting.holdsChannels (h : Enlisting config channels memory m calls crew p)
    (hfits : config.Fits) : HoldsChannels config (p.depart (producerBatch config)) := by
  rw [PipelineConfig.Fits] at hfits
  intro a c
  rw [Process.capability_depart, producerBatch_leaving]
  constructor
  · intro ha
    split at ha
    · cases ha
    · next hstays =>
      obtain ⟨i, rfl, hi⟩ := h.table.capability_iff.mp ha
      have hlt := (List.getElem?_eq_some_iff.mp hi).1
      rw [supervised, List.length_map, List.length_range] at hlt
      rw [supervised, List.getElem?_map, List.getElem?_range hlt] at hi
      refine ⟨i, ?_, rfl, (Option.some.inj hi).symm⟩
      by_contra hge
      exact hstays (List.mem_map_of_mem (List.mem_range'_1.mpr ⟨by omega, hlt⟩))
  · rintro ⟨k, hk, rfl, rfl⟩
    rw [if_neg, h.held (by omega)]
    · rfl
    · intro hmem
      obtain ⟨j, hj, heq⟩ := List.mem_map.mp hmem
      rw [List.mem_range'_1] at hj
      rw [handleTo_inj (by omega) (by omega)] at heq
      omega

structure Booted (config : PipelineConfig) (calls : List Call) (kp : KernelPipeline) : Prop where
  ring : Circulates config kp (Carousel.start (bootTokens config))
  ready : kp.sched.readyQueue = (List.range (config.stages + 3)).map pidAt
  log : ∃ log, Plays .new calls log kp.system ∧
    Minted config log (Carousel.start (bootTokens config))
  chronicle : Chronicle config kp.channels kp.sched [] (Carousel.start (bootTokens config))
    ⟨fun _ => [], fun _ => []⟩

theorem length_producerCaps (config : PipelineConfig) :
    (producerCaps config).length = 2 + config.pool := by
  simp [producerCaps, bootTokens]
  omega

def producerStage (config : PipelineConfig) : PipelineStage :=
  ⟨pidAt (config.stages + 2), .producer, some (handleTo 1), some (handleTo 0),
    (List.range' 2 config.pool).map handleTo, 0⟩

/-- A producer that holds what it was spawned with is supplied with the regions. -/
theorem supplies_producer {child : Process} (hlists : child.Lists (producerCaps config)) :
    Supplies config (Carousel.start (bootTokens config)) (producerStage config) child := by
  have hlength := length_producerCaps config
  refine ⟨⟨⟨_, rfl, hlists.held 1 _ rfl⟩, ⟨_, rfl, hlists.held 0 _ rfl⟩⟩, fun a c ha => ?_,
    ⟨0, Nat.zero_le _, hlength ▸ hlists.upto⟩, ?_, rfl⟩
  · obtain ⟨i, rfl, hi⟩ := hlists.capability_iff.mp ha
    cases i with
    | zero => exact Or.inr (Or.inl rfl)
    | succ i =>
      cases i with
      | zero => exact Or.inl rfl
      | succ i =>
        have hlt := (List.getElem?_eq_some_iff.mp hi).1
        rw [hlength] at hlt
        exact Or.inr (Or.inr (List.mem_map_of_mem (List.mem_range'_1.mpr (by omega))))
  · rw [List.forall₂_iff_get]
    refine ⟨by simp [producerStage, Carousel.start, bootTokens], fun i hi hi' => ?_⟩
    simp only [producerStage, List.get_eq_getElem, List.getElem_map, List.getElem_range',
      Nat.one_mul]
    refine hlists.held (2 + i) _ ?_
    rw [producerCaps, Nat.add_comm 2 i, List.getElem?_cons_succ, List.getElem?_cons_succ,
      List.getElem?_map]
    exact congrArg _ (List.getElem?_eq_getElem hi')

theorem Enlisting.crewed (h : Enlisting config channels memory (config.stages + 2) calls crew p)
    (hfits : config.Fits) {child : Process} {sched : Scheduler}
    (hrecruit : Recruited (config.stages + 2) crew.sched sched (p.depart (producerBatch config)) child)
    (hlists : child.Lists (producerCaps config)) :
    Crewed config (Carousel.start (bootTokens config)) (seats config.stages)
      (crew.stages ++ [producerStage config]) sched := by
  refine ⟨?_, fun j seat hseat => ?_⟩
  · rw [List.length_append, h.length, length_seats]
    rfl
  · have hj := (List.getElem?_eq_some_iff.mp hseat).1
    rw [length_seats] at hj
    by_cases hlast : j = config.stages + 2
    · subst hlast
      obtain rfl := Option.some.inj ((seats_producer_iff.mpr rfl).symm.trans hseat)
      exact ⟨_, child, by rw [← h.length, List.getElem?_concat_length], rfl, hrecruit.child, rfl,
        supplies_producer hlists⟩
    · have hlt : j < crew.stages.length := by
        rw [h.length]
        omega
      rw [List.getElem?_append_left hlt]
      by_cases hfirst : j = 0
      · subst hfirst
        obtain rfl := Option.some.inj hseat
        exact ⟨_, _, h.first, rfl, hrecruit.parent, rfl, h.holdsChannels hfits⟩
      · obtain ⟨stage, q, hstage, hstagePid, hq, hmanned⟩ :=
          h.member j seat (by omega) (by omega) hseat
        exact ⟨stage, q, hstage, hstagePid, (hrecruit.others j (by omega) (by omega)).trans hq,
          hmanned⟩

/-- The producer joins the crew last, and takes the regions with it. -/
theorem Enlisting.producer
    (h : Enlisting config channels memory (config.stages + 2) calls crew p) (hfits : config.Fits)
    (hqueues : ∀ k, k < config.stages + 2 → channels.queues[objectAt k]? = some [])
    (hmemory : ∀ k, config.stages + 2 ≤ k → k < config.stages + 2 + config.pool →
      memory.regions[objectAt k]? = some (List.replicate config.regionSize 0)) :
    ∃ crew', spawnProducer crew (pidAt 0) ((List.range' 0 (config.stages + 1)).map handleTo)
        (handleTo (config.stages + 1))
        ((List.range' (config.stages + 2) config.pool).map handleTo) = .ok crew' ∧
      Booted config (calls ++ [.spawnChild (pidAt 0) (producerGrants config)])
        ⟨config, crew'.kernel, crew'.sched, channels, memory, crew'.stages⟩ := by
  have hstocked := h.stocked hfits hmemory
  have hresolved := h.resolved_producer hfits
  have hfits' := hfits
  rw [PipelineConfig.Fits] at hfits
  have hrecruit := h.recruit (by omega) (by omega) (producerBatch config)
  obtain ⟨child, hchild⟩ : ∃ q, q = Scheduler.newborn (pidAt (config.stages + 2))
    p.clock.sendEvent.1 ((producerBatch config).map deliver) := ⟨_, rfl⟩
  rw [← hchild] at hrecruit
  have hlength := length_producerCaps config
  have hlists : child.Lists (producerCaps config) := by
    rw [hchild, producerBatch_deliver]
    exact lists_newborn _ _ (by omega)
  have hhandles : child.handles =
      handleTo 0 :: handleTo 1 :: (List.range' 2 config.pool).map handleTo := by
    rw [hlists.handles (by omega), hlength, Nat.add_comm, List.range_eq_range', List.range'_succ,
      List.range'_succ]
    rfl
  have hspawn := spawnChild_eq h.supervisor hresolved
  have hpid : (⟨crew.sched.nextProcessId⟩ : ProcessId) = pidAt (config.stages + 2) := by
    rw [h.next]
    rfl
  rw [hpid, producerBatch_grants] at hspawn
  refine ⟨⟨crew.sched.recruit (pidAt 0) p (producerBatch config),
    moveObjects crew.kernel (producerBatch config), _⟩, ?_, ⟨rfl, ?_, fun k hk =>
    ⟨[], hqueues k (by omega), .nil⟩, ⟨[], hqueues _ (by omega), .nil⟩,
    h.crewed hfits' hrecruit hlists⟩, hrecruit.ready, ?_,
    chronicle_boot hqueues hrecruit.clocks⟩
  · have hgrants : Grant.derive (handleTo 0) Rights.WRITE ::
        Grant.derive (handleTo (config.stages + 1)) .READ ::
          ((List.range' (config.stages + 2) config.pool).map handleTo).map Grant.move =
        producerGrants config := by
      rw [List.map_map]
      rfl
    simp only [spawnProducer, handleAt_range' (Nat.succ_pos config.stages), bind, Except.bind,
      hgrants, hspawn, sortedHandles, hrecruit.child, hhandles]
    simp only [handleAt, expect, List.getElem?_cons_zero, List.getElem?_cons_succ, pure, Except.pure,
      List.drop_succ_cons, List.drop_zero]
    rfl
  · rw [items_boot]
    exact hstocked
  · obtain ⟨log, hplays, hlog⟩ := h.log
    have hspawned := plays_spawnChild (s := ⟨crew.kernel, crew.sched, channels, memory⟩)
      h.supervisor hresolved
    rw [producerBatch_grants] at hspawned
    exact ⟨_, hplays.append hspawned, h.minted hfits' hlog⟩

end Crews

section Boot
variable {config : PipelineConfig}

/-- The capabilities of the supervisor, in the order in which it is granted them. -/
theorem supervised_eq (config : PipelineConfig) : supervised config =
    (List.range' 0 (config.stages + 1)).map freshCap ++ [freshCap (config.stages + 1)] ++
      (List.range' (config.stages + 2) config.pool).map freshCap := by
  have hsplit := List.range'_append_1 (s := 0) (m := config.stages + 2) (n := config.pool)
  rw [Nat.zero_add, List.range'_concat] at hsplit
  rw [supervised, List.range_eq_range', ← hsplit]
  simp

theorem filter_created (config : PipelineConfig) (hfits : config.Fits) (k : ℕ)
    (hk : k < config.stages + 2 + config.pool) :
    (minted ((List.range' 0 (config.stages + 2 + config.pool)).map fun k =>
      .created (freshCap k))).filter (fun c => c.object = objectAt k) = [freshCap k] := by
  rw [PipelineConfig.Fits] at hfits
  rw [minted, List.filterMap_map]
  change (List.filterMap (some ∘ freshCap) _).filter _ = _
  rw [List.filterMap_eq_map]
  exact filter_range' 0 _ k (Nat.zero_le k) (by omega) (by omega) freshCap fun _ => rfl

def rootSched : Scheduler := (Scheduler.new.spawn []).2

def rootProcess (config : PipelineConfig) : Process :=
  ((Process.new (pidAt 0)).grantAll (supervised config)).2

theorem lists_rootProcess (hfits : config.Fits) :
    (rootProcess config).Lists (supervised config) := by
  rw [PipelineConfig.Fits] at hfits
  refine (Process.Lists.new _).grantAll ?_
  rw [supervised, List.length_map, List.length_range]
  simp only [List.length_nil]
  omega

/-- The three grants of boot: their handles, and the supervisor after them. -/
theorem rootProcess_grants (hfits : config.Fits) :
    ∃ p₁ p₂, (Process.new (pidAt 0)).grantAll ((List.range' 0 (config.stages + 1)).map freshCap) =
        ((List.range' 0 (config.stages + 1)).map handleTo, p₁) ∧
      p₁.grant (freshCap (config.stages + 1)) = (handleTo (config.stages + 1), p₂) ∧
      p₂.grantAll ((List.range' (config.stages + 2) config.pool).map freshCap) =
        ((List.range' (config.stages + 2) config.pool).map handleTo, rootProcess config) := by
  rw [PipelineConfig.Fits] at hfits
  have hnew : (Process.new (pidAt 0)).Upto 0 := (Process.Lists.new _).upto
  obtain ⟨hchan, hupto, -⟩ := hnew.grantAll ((List.range' 0 (config.stages + 1)).map freshCap) (by
    rw [List.length_map, List.length_range']
    omega)
  rw [List.length_map, List.length_range'] at hchan hupto
  rw [Nat.zero_add] at hupto
  obtain ⟨p₁, hp₁⟩ : ∃ p₁, p₁ = ((Process.new (pidAt 0)).grantAll
    ((List.range' 0 (config.stages + 1)).map freshCap)).2 := ⟨_, rfl⟩
  obtain ⟨p₂, hp₂⟩ : ∃ p₂, p₂ = (p₁.grant (freshCap (config.stages + 1))).2 := ⟨_, rfl⟩
  rw [← hp₁] at hupto
  have hupto₂ : p₂.Upto (config.stages + 2) := hp₂ ▸ hupto.grant (by omega)
  obtain ⟨hregions, -⟩ := hupto₂.grantAll ((List.range' (config.stages + 2) config.pool).map freshCap)
    (by
      rw [List.length_map, List.length_range']
      omega)
  rw [List.length_map, List.length_range'] at hregions
  refine ⟨p₁, p₂, Prod.ext hchan hp₁.symm, Prod.ext ?_ hp₂.symm, Prod.ext hregions ?_⟩
  · change (⟨p₁.nextHandle⟩ : Handle) = _
    rw [hupto.nextHandle]
    rfl
  · rw [rootProcess, supervised_eq, Process.grantAll_append, Process.grantAll_append, ← hp₁, hp₂]
    rfl

theorem enlisting_root (hfits : config.Fits) {kernel : Kernel} {channels : ChannelRegistry}
    {memory : RegionRegistry} (hepochs : ∀ k, k < config.stages + 2 + config.pool →
      kernel.epochs[objectAt k]? = some 0) {calls : List Call}
    (hplays : Plays .new calls ((List.range' 0 (config.stages + 2 + config.pool)).map fun k =>
      .created (freshCap k))
      ⟨kernel, rootSched.setProcess (pidAt 0) (rootProcess config), channels, memory⟩) :
    Enlisting config channels memory 1 calls
      ⟨rootSched.setProcess (pidAt 0) (rootProcess config), kernel,
        [⟨pidAt 0, .supervisor, none, none, [], 0⟩]⟩ (rootProcess config) := by
  have hroot : ∀ id q, (rootSched.setProcess (pidAt 0) (rootProcess config)).process id = some q →
      q = rootProcess config := by
    intro id q hq
    rw [process_setProcess] at hq
    split at hq
    · exact (Option.some.inj hq).symm
    · next hne =>
      rw [rootSched, Scheduler.spawn, process_enlist] at hq
      change (if pidAt 0 = id then _ else _) = _ at hq
      rw [if_neg hne] at hq
      simp [Scheduler.freshId, Scheduler.new, Scheduler.process] at hq
  refine ⟨setProcess_process_self _, lists_rootProcess hfits, hepochs, rfl, rfl,
    fun j seat hj hlt => by omega, rfl, rfl, fun id q hq => ?_, _, hplays, fun k _ hk =>
      filter_created config hfits k hk⟩
  rw [hroot id q hq, rootProcess, Process.grantAll_clock]
  exact VectorClock.below_new _

theorem new_overflows (hallocates : ¬config.Allocates) :
    KernelPipeline.new config = .error (.panic "capacity overflow") := by
  obtain ⟨hpool, hsize⟩ := not_or.mp hallocates
  obtain ⟨n, hn⟩ := Nat.exists_eq_succ_of_ne_zero hpool
  have hregions (memory : RegionRegistry) (kernel : Kernel) :
      newRegions config.regionSize config.pool memory kernel =
        .error (.panic "capacity overflow") := by
    rw [hn, newRegions, RegionRegistry.newRegion_of_le (not_lt.mp hsize)]
    rfl
  simp only [KernelPipeline.new, hregions, bind, Except.bind]

theorem allocates_of_new {kp : KernelPipeline} (h : KernelPipeline.new config = .ok kp) :
    config.Allocates := by
  by_contra hallocates
  cases (new_overflows hallocates).symm.trans h

/-- Boot succeeds, and leaves the ring at rest. -/
theorem new_boots (hfits : config.Fits) (hallocates : config.Allocates) :
    ∃ kp, KernelPipeline.new config = .ok kp ∧ Booted config (bootCalls config) kp := by
  obtain ⟨channels, kernel₁, hchannels, hid, hepochs, hqueues, hplays⟩ :=
    newChannels_eq (config.stages + 2) .new rootSched .new (rfl : Kernel.new.nextId = UInt64.ofNat 0)
  rw [Nat.zero_add] at hid
  obtain ⟨memory, kernel, hregions, -, hepochs', hmemory, hplays'⟩ :=
    newRegions_eq hallocates .new rootSched channels hid
  obtain ⟨p₁, p₂, hgrants, hgrant, hgrants'⟩ := rootProcess_grants hfits
  -- the channel created last is the one for returns
  have hsplit := newChannels_succ (config.stages + 1) .new .new
  rw [hchannels] at hsplit
  obtain ⟨⟨caps, channels₁, kernel₂⟩, hfirst⟩ : ∃ first,
    newChannels (config.stages + 1) .new .new = first := ⟨_, rfl⟩
  rw [hfirst] at hsplit
  simp only [Prod.mk.injEq] at hsplit
  obtain ⟨hcaps, hlast⟩ := hsplit
  rw [List.range'_concat, List.map_append] at hcaps
  obtain ⟨rfl, hret⟩ := List.append_inj' hcaps rfl
  have hret' : channels₁.newChannel kernel₂ =
      (freshCap (config.stages + 1), channels, kernel₁) := by
    refine Prod.ext ?_ (Prod.ext hlast.1.symm hlast.2.symm)
    have hone := (List.cons.inj hret).1
    rw [Nat.zero_add, Nat.one_mul] at hone
    exact hone.symm
  have hlive : ∀ k, k < config.stages + 2 + config.pool → kernel.epochs[objectAt k]? = some 0 := by
    intro k hk
    rw [PipelineConfig.Fits] at hfits
    rcases Nat.lt_or_ge k (config.stages + 2) with hlt | hge
    · rw [hepochs'.frame, hepochs.fresh k (Nat.zero_le k) (by omega)]
      intro j hj hj'
      rw [Ne, objectAt_inj (by omega) (by omega)]
      omega
    · exact hepochs'.fresh k hge hk
  have hroot : Plays .new [.spawn []] [] ⟨.new, rootSched, .new, .new⟩ :=
    .single (.ok (.process (pidAt 0))) rfl rfl
  have hprocess : rootSched.process (pidAt 0) = some (Process.new (pidAt 0)) :=
    (process_enlist ..).trans (if_pos rfl)
  have hgranted := plays_grants (s := ⟨kernel, rootSched, channels, memory⟩) (pidAt 0)
    (supervised config) hprocess
  have hevents : ([] : List KernelEvent) ++ (((List.range' 0 (config.stages + 2)).map fun k =>
      .created (freshCap k)) ++ (((List.range' (config.stages + 2) config.pool).map fun k =>
        .created (freshCap k)) ++ [])) =
      (List.range' 0 (config.stages + 2 + config.pool)).map fun k => .created (freshCap k) := by
    rw [List.append_nil, List.nil_append, ← List.map_append]
    have hjoin := List.range'_append_1 (s := 0) (m := config.stages + 2) (n := config.pool)
    rw [Nat.zero_add] at hjoin
    rw [hjoin]
  have hplayed := hroot.append (hplays.append (hplays'.append hgranted))
  rw [hevents] at hplayed
  have hstart := enlisting_root hfits hlive hplayed
  obtain ⟨crew₁, q₁, hsink, henlisted⟩ := hstart.stage hfits Nat.one_pos rfl
  obtain ⟨crew₂, q₂, htransformers, henlisted⟩ :=
    henlisted.transformers hfits config.stages (Nat.lt_succ_self 1) rfl
  obtain ⟨crew₃, hproducer, hbooted⟩ := henlisted.producer hfits
    (fun k hk => hqueues.fresh k (Nat.zero_le k) (by omega)) hmemory.fresh
  have hcalls : [Call.spawn []] ++ (List.replicate (config.stages + 2) .newChannel ++
      (List.replicate config.pool (.newRegion config.regionSize) ++
        (supervised config).map (.grant (pidAt 0)))) ++
      [.spawnChild (pidAt 0) (stageGrants config.stages)] ++
      ((List.range config.stages).reverse.map fun k => .spawnChild (pidAt 0) (stageGrants k)) ++
      [.spawnChild (pidAt 0) (producerGrants config)] = bootCalls config := by
    simp only [bootCalls, supervised, List.range_succ (n := config.stages), List.reverse_append,
      List.reverse_singleton, List.map_cons, List.map_map, List.append_assoc, List.cons_append,
      List.nil_append, Function.comp_def]
  have hrole : roleAt config.stages config.stages = .sink := if_neg (Nat.lt_irrefl _)
  have hspawn : Scheduler.new.spawn [] = (pidAt 0, rootSched) := rfl
  rw [hrole] at hsink
  refine ⟨⟨config, crew₃.kernel, crew₃.sched, channels, memory, crew₃.stages⟩, ?_, hcalls ▸ hbooted⟩
  simp only [KernelPipeline.new, hspawn, hfirst, hret', hregions, hprocess, expect, bind,
    Except.bind, hgrants, hgrant, hgrants', handleAt_range' (Nat.lt_succ_self config.stages), hsink,
    htransformers, hproducer, pure, Except.pure]

end Boot
end Muaddib
