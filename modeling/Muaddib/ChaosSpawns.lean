import Muaddib.ChaosHandovers

/-! # Spawns

A child gets every channel and the batch. The spawn succeeds exactly when the model accepts the
batch, and the child is mirrored with what the model hands over. -/
namespace Muaddib.Chaos
open LabelledRuns

section Staying
variable {batch₀ batch : List (Grant × Capability)}

def Stays (batch : List (Grant × Capability)) : Prop :=
  ∀ x ∈ batch, x.1.leaving = none ∧ x.1.isMove = false

theorem leavingHandles_stays (h : Stays batch₀) :
    leavingHandles (batch₀ ++ batch) = leavingHandles batch := by
  induction batch₀ with
  | nil => rfl
  | cons x batch₀ ih =>
    rw [List.cons_append, leavingHandles_cons, (h x List.mem_cons_self).1,
      ih fun y hy => h y (List.mem_cons_of_mem _ hy)]
    rfl

theorem moveObjects_stays (h : Stays batch₀) (k : Kernel) :
    moveObjects k (batch₀ ++ batch) = moveObjects k batch := by
  induction batch₀ with
  | nil => rfl
  | cons x batch₀ ih =>
    have hx : moveObject k x = k := by
      rw [moveObject, (h x List.mem_cons_self).2]
      rfl
    rw [List.cons_append, moveObjects, List.foldl_cons, hx]
    exact ih fun y hy => h y (List.mem_cons_of_mem _ hy)

theorem depart_stays (h : Stays batch₀) (p : Process) : p.depart (batch₀ ++ batch) = p.depart batch := by
  rw [Process.depart, leavingHandles_stays h]
  rfl

theorem deliver_stays (h : Stays batch₀) :
    (batch₀ ++ batch).map deliver = batch₀.map Prod.snd ++ batch.map deliver := by
  rw [List.map_append]
  congr 1
  apply List.map_congr_left
  intro x hx
  rw [deliver, (h x hx).2]
  rfl

theorem resolved_of_append {k : Kernel} {p : Process} (h : Resolved k p (batch₀ ++ batch)) :
    Resolved k p batch := by
  induction batch₀ with
  | nil => exact h
  | cons x batch₀ ih => exact ih h.tail

/-- Derivations may be put in front of a batch whose objects they do not name. -/
theorem resolved_after {k : Kernel} {p : Process} (h : Resolved k p batch) (hstays : Stays batch₀)
    (hentries : ∀ x ∈ batch₀, resolveGrant k p x.1 = .ok x.2)
    (hapart : ∀ x ∈ batch₀, ∀ y ∈ batch, x.2.object ≠ y.2.object) : Resolved k p (batch₀ ++ batch) := by
  refine ⟨fun x hx => ?_, ?_, ?_⟩
  · rcases List.mem_append.mp hx with hx | hx
    · exact hentries x hx
    · exact h.entries x hx
  · rw [leavingHandles_stays hstays]
    exact h.leaving
  · rw [List.pairwise_append]
    refine ⟨?_, h.apart, fun x hx y hy _ => hapart x hx y hy⟩
    rw [List.pairwise_iff_forall_sublist]
    intro x y hxy hmoves
    have hx : x ∈ batch₀ := hxy.subset List.mem_cons_self
    have hy : y ∈ batch₀ := hxy.subset (List.mem_cons_of_mem _ List.mem_cons_self)
    rw [(hstays x hx).2, (hstays y hy).2] at hmoves
    cases hmoves

end Staying

theorem set_concat {α : Type} (xs : List α) (a b : α) : (xs ++ [a]).set xs.length b = xs ++ [b] := by
  rw [List.set_append_right _ _ le_rfl, Nat.sub_self]
  rfl

/-- The child enters the model with its channels and the delivered models. -/
theorem recordSpawn_eq {w : World} {p : ℕ} {g : CausalLedger}
    (h : Chronicled g w.procs.length w.stamps w.preds w.lastEvent w.inFlight)
    (hp : p < w.procs.length) (hn : w.procs.length < maxProcesses) {q born : Process}
    {child : ProcessId} {delivered models : List CapModel} (hq : w.process p = .ok q)
    (hborn : w.sched.process child = some born) (hchild : child = pidAt w.procs.length)
    (hmodels : ((List.range channelCount).map fun c => ⟨.channel c, World.channelRights, 0⟩) ++
      delivered = models)
    (hlength : born.handles.length = models.length)
    (hentries : ∀ x ∈ born.handles.zip models, born.capability x.1 = some x.2.cap) :
    ∃ lastEvent preds, w.recordSpawn p child delivered = .ok { w with
        procs := w.procs ++ [⟨child, insertAll ∅ (born.handles.zip models)⟩]
        stash := w.stash ++ (born.handles.zip models).map fun x => (x.2.cap, x.2)
        stamps := w.stamps ++ [q.currentStamp] ++ [born.currentStamp]
        lastEvent, preds } ∧
      Chronicled ((g.record (pidAt p) q.currentStamp []).record child born.currentStamp
        [g.nodes.length]) (w.procs.length + 1) (w.stamps ++ [q.currentStamp] ++ [born.currentStamp])
        preds lastEvent w.inFlight := by
  obtain ⟨lastEvent₁, preds₁, hrecord₁, hrecorded₁⟩ :=
    recordEvent_eq h hp hn.le q.currentStamp []
  let w₁ : World := { w with
    procs := w.procs ++ [⟨child, ∅⟩], lastEvent := lastEvent₁ ++ [none]
    stamps := w.stamps ++ [q.currentStamp], preds := preds₁ }
  have hi : w₁.procs[w.procs.length]? = some ⟨child, ∅⟩ := List.getElem?_concat_length
  let w₂ : World := { w₁ with
    procs := w₁.procs.set w.procs.length ⟨child, insertAll ∅ (born.handles.zip models)⟩
    stash := w₁.stash ++ (born.handles.zip models).map fun x => (x.2.cap, x.2) }
  have hmirror : World.mirrorAll w.procs.length child (born.handles.zip models) w₁ = .ok w₂ :=
    mirrorAll_eq hi hborn hentries
  obtain ⟨lastEvent, preds, hrecord, hrecorded⟩ := recordEvent_eq (w := w₂) (hrecorded₁.enlist hn)
    (Nat.lt_succ_self _) hn born.currentStamp [w.stamps.length]
  refine ⟨lastEvent, preds, ?_, ?_⟩
  · have hprocs : w₂.procs = w.procs ++ [⟨child, insertAll ∅ (born.handles.zip models)⟩] :=
      set_concat ..
    have hborn₂ : w₂.sched.process child = some born := hborn
    rw [← hprocs, World.recordSpawn, hq, ok_bind, hrecord₁, ok_bind]
    simp only [hborn, expect_some, ok_bind, hmodels]
    rw [ensure_true _ (by rw [hlength]; exact beq_self_eq_true _), ok_bind]
    change (do
      let w' ← World.mirrorAll w.procs.length child (born.handles.zip models) w₁
      let childProc ← expect "called `Option::unwrap()` on a `None` value"
        (w'.sched.process child)
      let x ← w'.recordEvent w.procs.length childProc.currentStamp [w.stamps.length]
      pure x.2 : Check World) = _
    rw [hmirror, ok_bind, hborn₂, expect_some, ok_bind, hrecord]
    rfl
  · rw [h.length, ← hchild] at hrecorded
    exact hrecorded

section Operations
variable {tr : List SystemEntry} {w : World} {p : ℕ}

/-- A batch that does not resolve does not resolve behind the grants of the channels. -/
theorem resolveGrants_refused {k : Kernel} {proc : Process} {grants : List Grant} {e : GrantError}
    (h : resolveGrants k proc grants = .error e) (more : List Grant) :
    ∃ e', resolveGrants k proc (more ++ grants) = .error e' := by
  cases hr : resolveGrants k proc (more ++ grants) with
  | error e' => exact ⟨e', rfl⟩
  | ok caps =>
    obtain ⟨batch, hbatch, hgrants, -⟩ := resolveGrants_eq_ok_iff.mp hr
    obtain ⟨batch₁, batch₂, rfl, -, hsecond⟩ := List.map_eq_append_iff.mp hgrants.symm
    have hok := resolveGrants_eq_ok_iff.mpr ⟨batch₂, resolved_of_append hbatch, hsecond.symm, rfl⟩
    rw [hok] at h
    cases h

private theorem spawn_refused (h : Mirrors tr w) (hn : w.procs.length ≠ maxProcesses)
    {grants : List (ℕ × GrantKind)} {concrete : List (Handle × GrantKind)}
    (hconcrete : w.concreteGrants p grants = .ok concrete) {pm : ProcModel} {proc : Process}
    (hi : w.procs[p]? = some pm) (hproc : w.sched.process pm.pid = some proc)
    (hm : Mirrored w.regions.length pm proc) {e : GrantError}
    (he : resolveGrants w.k proc (toGrants concrete) = .error e)
    (hmodel : w.applyGrantsModel p concrete = .ok (none, w)) :
    ∃ w', w.executeSpawn p grants = .ok w' ∧ Mirrors (tr ++ w.entries (.spawn p grants)) w' := by
  obtain ⟨batch₀, hchannels, -, -⟩ :=
    channelGrants_eq hi hm (held_before hm []) h.authority.channel
  obtain ⟨e', he'⟩ := resolveGrants_refused he (batch₀.map Prod.fst)
  have hentries : w.entries (.spawn p grants) = [entry System.step w.system
      (.spawnChild pm.pid (batch₀.map Prod.fst ++ toGrants concrete))] := by
    rw [World.entries, World.calls, World.callsOf, if_neg hn, hconcrete, ok_bind, hmodel, ok_bind]
    simp only [hchannels, ok_bind, index_eq hi]
    rfl
  have hspawn : w.sched.spawnChild w.k pm.pid (batch₀.map Prod.fst ++ toGrants concrete) =
      (.error (.err (.grant e')), w.sched, w.k) := by
    simp only [Scheduler.spawnChild, hproc, he']
  have hstep : w.system.step (.spawnChild pm.pid (batch₀.map Prod.fst ++ toGrants concrete)) =
      (.error (.err (.process (.grant e'))), w.system) := by
    simp only [System.step, World.system, hspawn, stopping]
  have hmirrors : Mirrors (tr ++ [entry System.step w.system
      (.spawnChild pm.pid (batch₀.map Prod.fst ++ toGrants concrete))]) w := by
    refine h.rewrite _ w (congrArg Prod.snd hstep) ?_ rfl rfl h.authority h.storage h.tables h.queues
      h.stashed ?_
    · rw [entry, hstep]
      rfl
    · rw [entry, hstep]
      exact h.chronicled
  rw [hentries]
  refine ⟨(w.logText ("spawn " ++ debug p ++ " " ++ debug concrete ++ " -> " ++ debug false)).outcome
    "spawn" false, ?_, hmirrors.relabel _ _⟩
  rw [World.executeSpawn, if_neg hn, hconcrete, ok_bind, hmodel, ok_bind]
  simp only [hchannels, ok_bind, index_eq hi, hspawn, returned]
  rfl

/-- The handles of a new process, in the order they were given out. -/
theorem newborn_handles (id : ProcessId) (spawnedAt : EventStamp) {caps : List Capability}
    (hlength : caps.length ≤ 2 ^ 32) : (Scheduler.newborn id spawnedAt caps).handles =
      ((((Process.new id).recordReceive spawnedAt).2).grantAll caps).1 := by
  have hnew := (Process.Lists.new id).recordReceive spawnedAt
  have hlists : (Scheduler.newborn id spawnedAt caps).Lists ([] ++ caps) :=
    hnew.grantAll (by rwa [List.length_nil, Nat.zero_add])
  have hfirst := (hnew.upto.grantAll caps (by rwa [List.length_nil, Nat.zero_add])).1
  rw [hlists.handles (by rwa [List.nil_append]), hfirst, List.nil_append, List.range_eq_range']
  rfl

theorem newborn_known {n : ℕ} {delivered models : List CapModel}
    (hmodels : ((List.range channelCount).map fun c => ⟨.channel c, World.channelRights, 0⟩) ++
      delivered = models) (hdelivered : ∀ m ∈ delivered, m.Known n) : ∀ m ∈ models, m.Known n := by
  intro m hm
  rw [← hmodels] at hm
  rcases List.mem_append.mp hm with hm | hm
  · obtain ⟨c, hc, rfl⟩ := List.mem_map.mp hm
    exact CapModel.known_channel.mpr ⟨List.mem_range.mp hc, rfl, Rights.contains_refl _⟩
  · exact hdelivered m hm

theorem newborn_mirrored {n : ℕ} (hn : channelCount + n < 2 ^ 64) {id : ProcessId}
    {spawnedAt : EventStamp} {delivered models : List CapModel}
    (hmodels : ((List.range channelCount).map fun c => ⟨.channel c, World.channelRights, 0⟩) ++
      delivered = models) (hdelivered : ∀ m ∈ delivered, m.Known n) (hlength : models.length ≤ 2 ^ 32) :
    Mirrored n ⟨id, insertAll ∅ ((Scheduler.newborn id spawnedAt
        (models.map CapModel.cap)).handles.zip models)⟩
      (Scheduler.newborn id spawnedAt (models.map CapModel.cap)) := by
  have hlength' : (models.map CapModel.cap).length ≤ 2 ^ 32 := by rwa [List.length_map]
  have hknown := newborn_known hmodels hdelivered
  have hempty : Held n ∅ ((Process.new id).recordReceive spawnedAt).2 := by
    refine ⟨rfl, fun a m ha => ?_⟩
    rw [Std.ExtTreeMap.getElem?_empty] at ha
    cases ha
  have hheld := hempty.grantAll hknown
  rw [← newborn_handles id spawnedAt hlength'] at hheld
  refine ⟨hheld, fun c hc => ?_⟩
  have hlists : (Scheduler.newborn id spawnedAt (models.map CapModel.cap)).Lists
      ([] ++ models.map CapModel.cap) :=
    ((Process.Lists.new id).recordReceive spawnedAt).grantAll
      (by rwa [List.length_nil, Nat.zero_add])
  have hcap : (models.map CapModel.cap)[c]? =
      some (CapModel.mk (.channel c) World.channelRights 0).cap := by
    rw [List.getElem?_map, ← hmodels, List.getElem?_append_left (by simpa using hc),
      List.getElem?_map, List.getElem?_range hc]
    rfl
  exact ⟨handleTo c, hheld.channel_of hn (hlists.held c _ hcap) hc rfl⟩

/-- Behind the grants of the channels the batch resolves as it does alone, and the child is handed
every channel and what the model expects. -/
private theorem channels_first (h : Mirrors tr w) {w₀ : World} {pm pm₁ : ProcModel}
    {proc left : Process} (hm : Mirrored w.regions.length pm proc) (hi₁ : w₀.procs[p]? = some pm₁)
    (hm₁ : Mirrored w.regions.length pm₁ left) {batch : List (Grant × Capability)}
    (htable : pm₁.table = eraseAll pm.table (leavingHandles batch)) {delivered models : List CapModel}
    {regions : List RegionModel} (hbatch : Resolved w.k proc batch)
    (hover : HandsOver w w.k batch delivered regions)
    (hobjects : ∀ x ∈ batch, ∃ r, r < w.regions.length ∧ x.2.object = objectAt (channelCount + r))
    (hmodels : ((List.range channelCount).map fun c => ⟨.channel c, World.channelRights, 0⟩) ++
      delivered = models) :
    ∃ batch₀, w₀.channelGrants p = .ok (batch₀.map Prod.fst) ∧ Stays batch₀ ∧
      Resolved w.k proc (batch₀ ++ batch) ∧
      (batch₀ ++ batch).map deliver = models.map CapModel.cap := by
  have hsub : ∀ (a : Handle) (m : CapModel), pm₁.table[a]? = some m →
      proc.capability a = some m.cap := by
    rw [htable]
    exact held_before hm _
  obtain ⟨batch₀, hchannels, hcaps, hgood⟩ := channelGrants_eq hi₁ hm₁ hsub h.authority.channel
  have hstays : Stays batch₀ := fun x hx => ⟨(hgood x hx).2.1, (hgood x hx).2.2.1⟩
  have hfew := h.authority.few
  refine ⟨batch₀, hchannels, hstays, ?_, ?_⟩
  · apply resolved_after hbatch hstays fun x hx => (hgood x hx).1
    intro x hx y hy
    obtain ⟨c, hc, hx⟩ := (hgood x hx).2.2.2
    obtain ⟨r, hr, hy⟩ := hobjects y hy
    rw [hx, hy, Ne, objectAt_inj (by omega) (by omega)]
    omega
  · rw [deliver_stays hstays, hcaps, ← hover.delivers, ← hmodels, List.map_append, List.map_map]
    rfl

/-- A run that grants sparingly hands a child no more than its table holds. -/
private theorem handed_few {s : System} {parent child : ProcessId} {proc : Process}
    {batch : List (Grant × Capability)} {s' : System}
    (hstep : s.step (.spawnChild parent (batch.map Prod.fst)) = (.ok (.process child), s'))
    (hproc : s.sched.process parent = some proc) (hbatch : Resolved s.kernel proc batch)
    (hsparing : Sparing (tr ++ [entry System.step s (.spawnChild parent (batch.map Prod.fst))])) :
    (batch.map deliver).length ≤ 2 ^ 32 := by
  have hbound := hsparing child
  rw [grantCount_snoc, entry, hstep, SystemEntry.grantsInto] at hbound
  have hdelivered : ∀ o s₁, SystemEntry.delivered ⟨s, .spawnChild parent (batch.map Prod.fst), o, s₁⟩ =
      batch.map deliver := fun o s₁ => delivered_of_resolved hproc hbatch rfl
  simp only [SystemEntry.granted, if_true, hdelivered] at hbound
  omega

/-- The world after a spawn mirrors the system after it, if the parent and the child are mirrored and
the event of each is recorded. -/
private theorem spawn_mirrors (h : Mirrors tr w) {pm : ProcModel} (hi : w.procs[p]? = some pm)
    (hpid : pm.pid = pidAt p) (hn : w.procs.length < maxProcesses) {grants : List Grant}
    {child : ProcessId} (hchild : child = pidAt w.procs.length) {q born : Process} {sched : Scheduler}
    {k : Kernel} {regions : List RegionModel} {table : Std.ExtTreeMap Handle CapModel}
    {models : List CapModel} {lastEvent : List (Option ℕ)} {preds : List (List ℕ)}
    (hstep : w.system.step (.spawnChild pm.pid grants) =
      (.ok (.process child), { w.system with sched, kernel := k }))
    (hprocess : ∀ id, sched.process id = if child = id then some born else
      (w.sched.setProcess pm.pid q).process id) (hne : child ≠ pm.pid)
    (hauthority : Authority k w.channelObjects regions)
    (hcontents : regions.map RegionModel.content = w.regions.map RegionModel.content)
    (hq : Mirrored w.regions.length { pm with table } q)
    (hborn : Mirrored w.regions.length ⟨child, insertAll ∅ (born.handles.zip models)⟩ born)
    (hmodels : ∀ m ∈ models, m.Known w.regions.length)
    (hrecorded : Chronicled (((causality tr).record (pidAt p) q.currentStamp []).record child
        born.currentStamp [(causality tr).nodes.length]) (w.procs.length + 1)
      (w.stamps ++ [q.currentStamp] ++ [born.currentStamp]) preds lastEvent w.inFlight) :
    Mirrors (tr ++ [entry System.step w.system (.spawnChild pm.pid grants)]) { w with
      sched, k, regions, lastEvent, preds
      procs := w.procs.set p { pm with table } ++
        [⟨child, insertAll ∅ (born.handles.zip models)⟩]
      stash := w.stash ++ (born.handles.zip models).map fun x => (x.2.cap, x.2)
      stamps := w.stamps ++ [q.currentStamp] ++ [born.currentStamp] } := by
  have hcount : (w.procs.set p { pm with table } ++
      [(⟨child, insertAll ∅ (born.handles.zip models)⟩ : ProcModel)]).length = w.procs.length + 1 := by
    rw [List.length_append, List.length_set]
    rfl
  have hregions : regions.length = w.regions.length := by
    have hlength := congrArg List.length hcontents
    rwa [List.length_map, List.length_map] at hlength
  refine ⟨?_, ?_, ?_, ?_, hauthority, h.storage.congr hcontents, ?_, ?_, ?_, ?_⟩
  · have hrun := h.run.call (.spawnChild pm.pid grants) trivial
    rw [hstep] at hrun
    exact hrun
  · have hspawned : SystemEntry.isSpawn
        (entry System.step w.system (.spawnChild pm.pid grants)) = true := by
      rw [entry, hstep]
      rfl
    rw [spawnCount_snoc, hspawned, h.spawns, hcount, if_pos rfl]
  · rw [hcount]
    exact hn
  · rw [hregions, hcount]
    exact granted_mono h.granted (Nat.le_succ _)
  · rw [hregions]
    have hset : Tables w.regions.length (w.sched.setProcess pm.pid q)
        (w.procs.set p { pm with table }) := by
      apply h.tables.set h.procs hi hq
      intro id
      rw [← hpid]
      exact process_setProcess w.sched pm.pid q id
    apply hset.snoc
    · rw [List.length_set]
      exact hn
    · rw [List.length_set]
      exact hchild
    · exact hborn
    · intro id
      rw [List.length_set, ← hchild]
      exact hprocess id
  · rw [hregions]
    exact (h.queues.mono le_rfl [q.currentStamp]).mono le_rfl [born.currentStamp]
  · rw [hregions]
    exact h.stashed.append (stashed_entries hmodels _)
  · have hparent : sched.process pm.pid = some q := by
      rw [hprocess, if_neg hne, process_setProcess, if_pos rfl]
    have hlast : sched.process child = some born := by rw [hprocess, if_pos rfl]
    have hledger : (causality tr).step ⟨w.system, .spawnChild pm.pid grants, .ok (.process child),
        { w.system with sched, kernel := k }⟩ = ((causality tr).record pm.pid q.currentStamp []).record
          child born.currentStamp [(causality tr).nodes.length] :=
      (causality tr).step_spawnChild w.system _ hparent hlast
    rw [hcount, causality_snoc, entry, hstep, hledger, hpid]
    exact hrecorded

/-- A spawn that the model accepts makes the child that the model expects. -/
private theorem spawn_accepted (h : Mirrors tr w) (hp : p < w.procs.length)
    (hn : w.procs.length ≠ maxProcesses) {grants : List (ℕ × GrantKind)}
    {concrete : List (Handle × GrantKind)} (hconcrete : w.concreteGrants p grants = .ok concrete)
    {pm : ProcModel} {proc : Process} (hi : w.procs[p]? = some pm) (hpid : pm.pid = pidAt p)
    (hproc : w.sched.process pm.pid = some proc) (hm : Mirrored w.regions.length pm proc)
    (hregions : ∀ x ∈ concrete, ∃ m, pm.table[x.1]? = some m ∧ m.obj.isRegion = true)
    {batch : List (Grant × Capability)} {delivered : List CapModel} {regions : List RegionModel}
    (hbatch : Resolved w.k proc batch) (hgrants : toGrants concrete = batch.map Prod.fst)
    (hmodel : w.applyGrantsModel p concrete = .ok (some delivered, { w with
      procs := w.procs.set p { pm with table := eraseAll pm.table (leavingHandles batch) }
      regions }))
    (hover : HandsOver w w.k batch delivered regions)
    (hobjects : ∀ x ∈ batch, ∃ r, r < w.regions.length ∧ x.2.object = objectAt (channelCount + r))
    (hsparing : Sparing (tr ++ w.entries (.spawn p grants))) :
    ∃ w', w.executeSpawn p grants = .ok w' ∧ Mirrors (tr ++ w.entries (.spawn p grants)) w' := by
  let pm₁ : ProcModel := { pm with table := eraseAll pm.table (leavingHandles batch) }
  let w₀ : World := { w with procs := w.procs.set p pm₁, regions }
  have hmodel : w.applyGrantsModel p concrete = .ok (some delivered, w₀) := hmodel
  have hm₁ : Mirrored w.regions.length pm₁ (proc.depart batch) :=
    hm.depart (leaving_of_grants hregions hgrants)
  have hi₁ : w₀.procs[p]? = some pm₁ := List.getElem?_set_self hp
  let models : List CapModel :=
    ((List.range channelCount).map fun c => ⟨.channel c, World.channelRights, 0⟩) ++ delivered
  obtain ⟨batch₀, hchannels, hstays, hall, hdeliver⟩ :=
    channels_first h hm hi₁ hm₁ rfl hbatch hover hobjects (rfl : _ = models)
  have hgrants' : batch₀.map Prod.fst ++ toGrants concrete = (batch₀ ++ batch).map Prod.fst := by
    rw [hgrants, List.map_append]
  have hentries : w.entries (.spawn p grants) = [entry System.step w.system
      (.spawnChild pm.pid ((batch₀ ++ batch).map Prod.fst))] := by
    rw [World.entries, World.calls, World.callsOf, if_neg hn, hconcrete, ok_bind, hmodel, ok_bind,
      ← hgrants']
    simp only [hchannels, ok_bind, index_eq hi₁]
    rfl
  let child : ProcessId := ⟨w.sched.nextProcessId⟩
  let sentAt : EventStamp := proc.clock.sendEvent.1
  let q : Process := proc.depart batch
  let born : Process := Scheduler.newborn child sentAt (models.map CapModel.cap)
  let sched : Scheduler := (w.sched.setProcess pm.pid q).freshId.2.enlist child born
  have hspawn : w.sched.spawnChild w.k pm.pid ((batch₀ ++ batch).map Prod.fst) =
      (.ok child, sched, moveObjects w.k batch) := by
    rw [Scheduler.spawnChild_of_resolved hproc hall, depart_stays hstays, moveObjects_stays hstays,
      hdeliver]
  have hstep : w.system.step (.spawnChild pm.pid ((batch₀ ++ batch).map Prod.fst)) =
      (.ok (.process child), { w.system with sched, kernel := moveObjects w.k batch }) := by
    simp only [System.step, World.system, hspawn, stopping]
  have hchild : child = pidAt w.procs.length := by
    have hnext := (h.numbered hsparing.earlier).nextId
    rw [h.spawns] at hnext
    exact congrArg ProcessId.mk hnext
  have hlt : w.procs.length < maxProcesses := Nat.lt_of_le_of_ne h.procs hn
  have hne : child ≠ pm.pid := by
    rw [hchild, hpid]
    exact pidAt_ne hlt (hp.trans hlt) (Nat.ne_of_gt hp)
  have hprocess : ∀ id, sched.process id = if child = id then some born else
      (w.sched.setProcess pm.pid q).process id := fun id => process_enlist _ child born id
  have hlength : models.length ≤ 2 ^ 32 := by
    rw [hentries] at hsparing
    have hfew := handed_few hstep hproc hall hsparing
    rwa [hdeliver, List.length_map] at hfew
  have hparent : sched.process pm.pid = some q := by
    rw [hprocess, if_neg hne, process_setProcess, if_pos rfl]
  have hborn : sched.process child = some born := by rw [hprocess, if_pos rfl]
  have hhandles : born.handles =
      ((((Process.new child).recordReceive sentAt).2).grantAll (models.map CapModel.cap)).1 :=
    newborn_handles child sentAt (by rwa [List.length_map])
  let w₂ : World := World.outcome (World.logText { w₀ with sched, k := moveObjects w.k batch }
    ("spawn " ++ debug p ++ " " ++ debug concrete ++ " -> " ++ debug true)) "spawn" true
  have hlen : w₂.procs.length = w.procs.length := List.length_set ..
  have hchronicled : Chronicled (causality tr) w₂.procs.length w₂.stamps w₂.preds w₂.lastEvent
      w₂.inFlight := by
    rw [hlen]
    exact h.chronicled
  obtain ⟨lastEvent, preds, hrecord, hrecorded⟩ := recordSpawn_eq (w := w₂) hchronicled
    (by rwa [hlen]) (by rwa [hlen]) (process_eq hi₁ hparent) hborn (by rwa [hlen]) rfl
    (by rw [hhandles, Process.grantAll_length, List.length_map])
    (by rw [hhandles]; exact delivered_entries hlength)
  rw [hlen] at hrecorded
  have hfew := h.authority.few
  have hmirrors := spawn_mirrors h hi hpid hlt hchild hstep hprocess hne hover.authority hover.contents
    hm₁ (newborn_mirrored hfew rfl hover.known hlength) (newborn_known rfl hover.known) hrecorded
  rw [hentries]
  refine ⟨_, ?_, hmirrors.relabel w₂.summary w₂.log⟩
  have hspawn₀ : w₀.sched.spawnChild w₀.k pm₁.pid (batch₀.map Prod.fst ++ toGrants concrete) =
      (.ok child, sched, moveObjects w.k batch) := by
    rw [hgrants']
    exact hspawn
  rw [World.executeSpawn, if_neg hn, hconcrete, ok_bind, hmodel, ok_bind]
  simp only [hchannels, ok_bind, index_eq hi₁, hspawn₀, returned]
  exact hrecord

/-- A spawn succeeds exactly when the model accepts its batch; there is room for eight processes. -/
theorem executeSpawn_mirrors (h : Mirrors tr w) (hp : p < w.procs.length)
    {grants : List (ℕ × GrantKind)} (hsparing : Sparing (tr ++ w.entries (.spawn p grants))) :
    ∃ w', w.executeSpawn p grants = .ok w' ∧ Mirrors (tr ++ w.entries (.spawn p grants)) w' := by
  by_cases hn : w.procs.length = maxProcesses
  · have hentries : w.entries (.spawn p grants) = [] := by
      rw [World.entries, World.calls, World.callsOf, if_pos hn]
      rfl
    refine ⟨w, ?_, ?_⟩
    · rw [World.executeSpawn, if_pos hn]
      rfl
    · rwa [hentries, List.append_nil]
  · obtain ⟨pm, proc, hi, hpid, hproc, hm⟩ := h.process hp
    obtain ⟨concrete, hconcrete, hregions⟩ := concreteGrants_eq hi grants
    rcases applyGrantsModel_cases h.authority hi hm.toHeld hregions with
      ⟨e, he, hmodel⟩ | ⟨batch, delivered, regions, hbatch, hgrants, hmodel, hover, hobjects⟩
    · exact spawn_refused h hn hconcrete hi hproc hm he hmodel
    · exact spawn_accepted h hp hn hconcrete hi hpid hproc hm hregions hbatch hgrants hmodel hover
        hobjects hsparing

end Operations
end Muaddib.Chaos
