import Muaddib.ChaosAccesses

/-! # Operations on tables, messages and clocks

A new region and a local event, then the operations that hand capabilities over. -/
namespace Muaddib.Chaos
open LabelledRuns

section NewRegions
variable {k : Kernel} {objects : List ObjectId} {regions : List RegionModel} {mem : RegionRegistry}

theorem Authority.newRegion (h : Authority k objects regions)
    (hfew : channelCount + (regions.length + 1) < 2 ^ 64) (rights : Rights) (bytes : Bytes) :
    Authority (k.newObject rights).2 objects (regions ++ [⟨⟨k.nextId⟩, true, 0, bytes⟩]) := by
  have hobject : (⟨k.nextId⟩ : ObjectId) = objectAt (channelCount + regions.length) := by
    rw [h.nextId]
    rfl
  have hlength : (regions ++ [(⟨⟨k.nextId⟩, true, 0, bytes⟩ : RegionModel)]).length =
      regions.length + 1 := List.length_append
  refine ⟨by rwa [hlength], ?_, h.objects, fun c hc => ?_, fun i region hi => ?_⟩
  · change k.nextId + 1 = _
    rw [hlength, h.nextId, ← Nat.add_assoc, UInt64.ofNat_add (channelCount + regions.length)]
    rfl
  · rw [Kernel.newObject_epochs]
    split
    · rfl
    · exact h.channel c hc
  · rcases Nat.lt_or_ge i regions.length with hlt | hge
    · rw [List.getElem?_append_left hlt] at hi
      obtain ⟨hslot, hepoch⟩ := h.region i region hi
      refine ⟨hslot, ?_⟩
      rw [Kernel.newObject_epochs, if_neg, hepoch]
      rw [hobject, hslot, objectAt_inj (by omega) (by omega)]
      omega
    · have hlast : i = regions.length := by
        have hlt := (List.getElem?_eq_some_iff.mp hi).1
        omega
      subst hlast
      rw [List.getElem?_concat_length] at hi
      obtain rfl := Option.some.inj hi
      refine ⟨hobject, ?_⟩
      rw [Kernel.newObject_epochs, if_pos rfl]
      rfl

theorem Storage.newRegion (h : Storage mem regions) (hauthority : Authority k objects regions)
    (bytes : Bytes) : Storage ⟨mem.regions.insert ⟨k.nextId⟩ bytes⟩
      (regions ++ [⟨⟨k.nextId⟩, true, 0, bytes⟩]) := by
  have hfew := hauthority.few
  have hfresh : ∀ region ∈ regions, region.object ≠ ⟨k.nextId⟩ := by
    intro region hregion
    obtain ⟨r, hr⟩ := List.getElem?_of_mem hregion
    have hlt : r < regions.length := (List.getElem?_eq_some_iff.mp hr).1
    have hnew : (⟨k.nextId⟩ : ObjectId) = objectAt (channelCount + regions.length) := by
      rw [hauthority.nextId]
      rfl
    rw [(hauthority.region r region hr).1, hnew, Ne, objectAt_inj (by omega) (by omega)]
    omega
  have habsent : ¬mem.regions.contains ⟨k.nextId⟩ = true := by
    intro hcontains
    obtain ⟨region, hregion, hobject⟩ := h.stored _ (Std.ExtTreeMap.contains_iff_mem.mp hcontains)
    exact hfresh region hregion hobject
  refine ⟨fun region hregion => ?_, fun o ho => ?_, ?_⟩
  · rcases List.mem_append.mp hregion with hold | hnew
    · rw [FiniteMaps.getElem?_insert, if_neg (Ne.symm (hfresh region hold))]
      exact h.bytes region hold
    · rw [List.mem_singleton.mp hnew, FiniteMaps.getElem?_insert, if_pos rfl]
      rfl
  · rw [Std.ExtTreeMap.mem_iff_isSome_getElem?, FiniteMaps.getElem?_insert] at ho
    split at ho
    · next heq => exact ⟨_, List.mem_append_right _ List.mem_cons_self, heq⟩
    · rw [← Std.ExtTreeMap.mem_iff_isSome_getElem?] at ho
      obtain ⟨region, hregion, hobject⟩ := h.stored o ho
      exact ⟨region, List.mem_append_left _ hregion, hobject⟩
  · rw [List.filter_append, List.length_append, ← h.count, RegionRegistry.regionCount,
      Std.ExtTreeMap.size_insert, if_neg habsent]
    rfl

end NewRegions

section Growing
variable {n n' : ℕ} {stamps : List EventStamp}

theorem Sent.mono {mm : MessageModel} {m : Message} (h : Sent n stamps mm m) (hle : n ≤ n')
    (more : List EventStamp) : Sent n' (stamps ++ more) mm m := by
  refine ⟨h.caps, fun x hx => (h.known x hx).mono hle, ?_⟩
  rw [List.getElem?_append_left (List.getElem?_eq_some_iff.mp h.sentAt).1, h.sentAt]

theorem Queues.mono {channels : ChannelRegistry} {inFlight : List (List MessageModel)}
    (h : Queues n channels inFlight stamps) (hle : n ≤ n') (more : List EventStamp) :
    Queues n' channels inFlight (stamps ++ more) := by
  refine ⟨h.length, fun c queue hc => ?_⟩
  obtain ⟨ms, hqueued, hsent⟩ := h.queued c queue hc
  exact ⟨ms, hqueued, hsent.imp fun mm m hm => hm.mono hle more⟩

theorem Queues.set {channels : ChannelRegistry} {inFlight : List (List MessageModel)}
    (h : Queues n channels inFlight stamps) {c : ℕ} (hc : c < channelCount) {queue : List MessageModel}
    {ms : List Message} (hsent : List.Forall₂ (Sent n stamps) queue ms) :
    Queues n ⟨channels.queues.insert (objectAt c) ms⟩ (inFlight.set c queue) stamps := by
  have hlt : c < inFlight.length := by rwa [h.length]
  refine ⟨by rw [List.length_set, h.length], fun c' queue' hc' => ?_⟩
  rw [List.getElem?_set, if_pos hlt] at hc'
  split at hc'
  · next heq =>
    subst heq
    obtain rfl := Option.some.inj hc'
    exact ⟨ms, (FiniteMaps.getElem?_insert ..).trans (if_pos rfl), hsent⟩
  · next hne =>
    obtain ⟨ms', hqueued, hsent'⟩ := h.queued c' queue' hc'
    refine ⟨ms', ?_, hsent'⟩
    have hlt' : c' < channelCount := h.length ▸ (List.getElem?_eq_some_iff.mp hc').1
    rw [channelCount] at hc hlt'
    rw [FiniteMaps.getElem?_insert, if_neg, hqueued]
    rw [objectAt_inj (by omega) (by omega)]
    exact hne

theorem Stashed.mono {stash : List (Capability × CapModel)} (h : Stashed n stash) (hle : n ≤ n') :
    Stashed n' stash := fun x hx => ⟨(h x hx).1, (h x hx).2.mono hle⟩

theorem Stashed.append {stash later : List (Capability × CapModel)} (h : Stashed n stash)
    (hlater : Stashed n later) : Stashed n (stash ++ later) := by
  intro x hx
  rcases List.mem_append.mp hx with hx | hx
  · exact h x hx
  · exact hlater x hx

end Growing

section Operations
variable {tr : List SystemEntry} {w : World} {p : ℕ}

theorem entry_grant {s : System} {id : ProcessId} {proc : Process}
    (held : s.sched.process id = some proc) (cap : Capability) :
    entry System.step s (.grant id cap) = ⟨s, .grant id cap, .ok (.handle (proc.grant cap).1),
      s.setProcess id (proc.grant cap).2⟩ := by
  simp only [entry, System.step, System.withProcess, held]

theorem install_eq {pm : ProcModel} {proc : Process} (hi : w.procs[p]? = some pm)
    (hproc : w.sched.process pm.pid = some proc) (cap : Capability) (model : CapModel) :
    w.install p cap model = .ok { w with
      sched := w.sched.setProcess pm.pid (proc.grant cap).2
      procs := w.procs.set p { pm with table := pm.table.insert ⟨proc.nextHandle⟩ model }
      stash := w.stash ++ [(cap, model)] } := by
  rw [World.install, index_eq hi, ok_bind, process_eq hi hproc]
  rfl

def World.nextModel (w : World) : CapModel := ⟨.region w.regions.length, fullRights, 0⟩

def World.enlarged (w : World) (size : ℕ) : System := { w.system with
  kernel := (w.k.newObject fullRights).2
  memory := ⟨w.mem.regions.insert ⟨w.k.nextId⟩ (List.replicate size 0)⟩ }

/-- The world with one more region, held by process `p`. -/
def World.withRegion (w : World) (p : ℕ) (pm : ProcModel) (proc : Process) (size : ℕ) : World := { w with
  mem := (w.enlarged size).memory
  k := (w.enlarged size).kernel
  regions := w.regions ++ [⟨⟨w.k.nextId⟩, true, 0, List.replicate size 0⟩]
  sched := w.sched.setProcess pm.pid (proc.grant w.nextModel.cap).2
  procs := w.procs.set p { pm with table := pm.table.insert ⟨proc.nextHandle⟩ w.nextModel }
  stash := w.stash ++ [(w.nextModel.cap, w.nextModel)] }

section NewRegions
variable {pm : ProcModel} {proc : Process} {size : ℕ}

theorem newObject_cap (h : Authority w.k w.channelObjects w.regions) :
    (w.k.newObject fullRights).1 = w.nextModel.cap := by
  rw [Kernel.newObject, h.nextId]
  rfl

theorem newRegion_allocated (h : Authority w.k w.channelObjects w.regions) (hsize : size < 2 ^ 63) :
    w.mem.newRegion w.k size =
      (.ok w.nextModel.cap, (w.enlarged size).memory, (w.enlarged size).kernel) := by
  rw [RegionRegistry.newRegion_of_lt hsize, newObject_cap h]
  rfl

theorem newRegion_eq (h : Authority w.k w.channelObjects w.regions) (hsize : size < 2 ^ 63)
    (hi : w.procs[p]? = some pm) (hproc : w.sched.process pm.pid = some proc) :
    w.newRegion p size = .ok (w.withRegion p pm proc size) := by
  let regions : List RegionModel := w.regions ++ [⟨⟨w.k.nextId⟩, true, 0, List.replicate size 0⟩]
  have hvec : vecOf (0 : UInt8) size = .ok (List.replicate size 0) := if_pos hsize
  have hmodel : CapModel.mk (.region (regions.length - 1)) fullRights 0 = w.nextModel := by
    rw [List.length_append]
    rfl
  have hinstall := install_eq (w := { w with
    mem := (w.enlarged size).memory, k := (w.enlarged size).kernel, regions }) hi hproc w.nextModel.cap
    w.nextModel
  have hobject : w.nextModel.cap.object = ⟨w.k.nextId⟩ :=
    (congrArg Capability.object (newObject_cap h)).symm
  simp only [World.newRegion, newRegion_allocated h hsize, unlessPanicked, hvec, ok_bind, hobject]
  exact (congrArg (World.install _ p _) hmodel).trans hinstall

theorem newRegion_step (h : Authority w.k w.channelObjects w.regions) (hsize : size < 2 ^ 63) :
    w.system.step (.newRegion size) = (.ok (.capability w.nextModel.cap), w.enlarged size) := by
  change (stopping _ _ (w.mem.newRegion w.k size).1, { w.system with
    memory := (w.mem.newRegion w.k size).2.1, kernel := (w.mem.newRegion w.k size).2.2 }) = _
  rw [newRegion_allocated h hsize]
  rfl

theorem newRegion_calls (h : Authority w.k w.channelObjects w.regions) (hsize : size < 2 ^ 63)
    (hi : w.procs[p]? = some pm) :
    w.calls (.newRegion p size) = [.newRegion size, .grant pm.pid w.nextModel.cap] := by
  simp only [World.calls, World.callsOf, index_eq hi, ok_bind, newRegion_allocated h hsize,
    unlessPanicked]
  rfl

theorem newRegion_entries (h : Authority w.k w.channelObjects w.regions) (hsize : size < 2 ^ 63)
    (hi : w.procs[p]? = some pm) : w.entries (.newRegion p size) =
      [⟨w.system, .newRegion size, .ok (.capability w.nextModel.cap), w.enlarged size⟩,
        entry System.step (w.enlarged size) (.grant pm.pid w.nextModel.cap)] := by
  simp only [World.entries, newRegion_calls h hsize hi, trace, entry, newRegion_step h hsize]

/-- The regions stay fewer than what was granted, when there is one more of each. -/
theorem granted_once {n m : ℕ} {later : List SystemEntry}
    (h : n ≤ ∑ i ∈ Finset.range m, grantCount (pidAt i) tr) (hp : p < m)
    (hone : grantCount (pidAt p) later = 1) :
    n + 1 ≤ ∑ i ∈ Finset.range m, grantCount (pidAt i) (tr ++ later) := by
  have hsingle := Finset.single_le_sum (fun i _ => Nat.zero_le (grantCount (pidAt i) later))
    (Finset.mem_range.mpr hp)
  rw [hone] at hsingle
  simp only [grantCount_append, Finset.sum_add_distrib]
  omega

/-- The world with one more region mirrors the system after its creation. -/
private theorem withRegion_mirrors (h : Mirrors tr w) (hp : p < w.procs.length)
    (hsize : size < 2 ^ 63) (hsparing : Sparing (tr ++ w.entries (.newRegion p size)))
    (hi : w.procs[p]? = some pm) (hpid : pm.pid = pidAt p)
    (hproc : w.sched.process pm.pid = some proc) (hm : Mirrored w.regions.length pm proc) :
    Mirrors (tr ++ w.entries (.newRegion p size)) (w.withRegion p pm proc size) := by
  have hentries := newRegion_entries h.authority hsize hi
  have hgrant := entry_grant (s := w.enlarged size) hproc w.nextModel.cap
  have hinto : ∀ id, grantCount id (w.entries (.newRegion p size)) = if pm.pid = id then 1 else 0 := by
    intro id
    rw [hentries, hgrant, grantCount, List.map_cons, List.map_singleton, List.sum_pair]
    exact Nat.zero_add _
  have hgranted := granted_once h.granted hp ((hinto _).trans (if_pos hpid))
  have hfew := granted_few hgranted h.procs hsparing
  have hlength : (w.withRegion p pm proc size).regions.length = w.regions.length + 1 :=
    List.length_append
  have hgrow : w.regions.length ≤ w.regions.length + 1 := Nat.le_succ _
  have hknown : w.nextModel.Known (w.regions.length + 1) :=
    CapModel.known_region.mpr (Nat.lt_succ_self _)
  have hmirrored : Mirrored (w.regions.length + 1)
      { pm with table := pm.table.insert ⟨proc.nextHandle⟩ w.nextModel }
      (proc.grant w.nextModel.cap).2 := by
    have hbound := hsparing pm.pid
    rw [grantCount_append, hinto, if_pos rfl] at hbound
    have hone : ∀ m ∈ [w.nextModel], m.Known (w.regions.length + 1) := by
      intro m hmem
      rw [List.mem_singleton.mp hmem]
      exact hknown
    exact (hm.mono hgrow).deliver hfew (h.upto hsparing.earlier hproc)
      (show _ + [w.nextModel].length ≤ _ from hbound.le) hone
  refine ⟨?_, ?_, ?_, ?_, ?_, ?_, ?_, ?_, ?_, ?_⟩
  · have hrun := run_calls h.run [.newRegion size, .grant pm.pid w.nextModel.cap]
    have hfinal : final System.step w.system [.newRegion size, .grant pm.pid w.nextModel.cap] =
        (w.withRegion p pm proc size).system := by
      simp only [final, List.foldl_cons, newRegion_step h.authority hsize]
      exact congrArg Entry.after hgrant
    rw [hfinal, ← newRegion_calls h.authority hsize hi] at hrun
    exact hrun
  · rw [spawnCount_append, h.spawns, hentries, hgrant]
    exact (List.length_set ..).symm
  · exact (List.length_set ..).trans_le h.procs
  · rw [hlength, World.withRegion, List.length_set]
    exact hgranted
  · exact h.authority.newRegion hfew fullRights (List.replicate size 0)
  · exact h.storage.newRegion h.authority (List.replicate size 0)
  · rw [hlength]
    apply (h.tables.mono hgrow).set h.procs hi hmirrored
    intro id
    rw [World.withRegion, process_setProcess, hpid]
  · rw [hlength]
    have hqueues := h.queues.mono hgrow []
    rwa [List.append_nil] at hqueues
  · rw [hlength]
    apply (h.stashed.mono hgrow).append
    intro x hx
    rw [List.mem_singleton.mp hx]
    exact ⟨rfl, hknown⟩
  · rw [causality_append, hentries, hgrant, World.withRegion, List.length_set]
    exact h.chronicled

end NewRegions

theorem executeNewRegion_mirrors (h : Mirrors tr w) (hp : p < w.procs.length) {size : ℕ}
    (hsize : size < 2 ^ 63) (hsparing : Sparing (tr ++ w.entries (.newRegion p size))) :
    ∃ w', w.executeNewRegion p size = .ok w' ∧
      Mirrors (tr ++ w.entries (.newRegion p size)) w' := by
  obtain ⟨pm, proc, hi, hpid, hproc, hm⟩ := h.process hp
  have hmirrors := withRegion_mirrors h hp hsize hsparing hi hpid hproc hm
  refine ⟨((w.withRegion p pm proc size).outcome "new_region" true).logText
    ("new_region " ++ debug p ++ " " ++ debug size), ?_, hmirrors.relabel _ _⟩
  rw [World.executeNewRegion, newRegion_eq h.authority hsize hi hproc]
  rfl

theorem executeLocal_mirrors (h : Mirrors tr w) (hp : p < w.procs.length) :
    ∃ w', w.executeLocal p = .ok w' ∧ Mirrors (tr ++ w.entries (.local p)) w' := by
  obtain ⟨pm, proc, hi, hpid, hproc, hm⟩ := h.process hp
  have hentries : w.entries (.local p) = [entry System.step w.system (.recordLocalEvent pm.pid)] := by
    rw [World.entries, World.calls, World.callsOf, index_eq hi]
    rfl
  have hentry := entry_recordLocalEvent (s := w.system) hproc
  let w₀ : World := w.setProcess pm.pid proc.recordLocalEvent.2
  obtain ⟨lastEvent, preds, hrecord, hchronicled⟩ :=
    recordEvent_eq (w := w₀) h.chronicled hp h.procs proc.recordLocalEvent.1 []
  let w₁ : World := { w₀ with lastEvent, stamps := w.stamps ++ [proc.recordLocalEvent.1], preds }
  have hmirrors : Mirrors (tr ++ [entry System.step w.system (.recordLocalEvent pm.pid)]) w₁ := by
    refine h.rewrite (.recordLocalEvent pm.pid) w₁ (congrArg Entry.after hentry) ?_ rfl rfl h.authority
      h.storage ?_ (h.queues.mono le_rfl _) h.stashed ?_
    · rw [hentry]
      rfl
    · have htables : Tables w.regions.length w₁.sched (w.procs.set p pm) := by
        refine h.tables.set h.procs hi (p := proc.recordLocalEvent.2) (hm.frame rfl) fun id => ?_
        rw [← hpid]
        exact process_setProcess w.sched pm.pid proc.recordLocalEvent.2 id
      rwa [set_self hi] at htables
    · rw [hentry]
      exact hpid ▸ hchronicled
  refine ⟨(w₁.outcome "local" true).logText ("local " ++ debug p), ?_, ?_⟩
  · rw [World.executeLocal, index_eq hi, ok_bind, process_eq hi hproc, ok_bind]
    change (w₀.recordEvent p proc.recordLocalEvent.1 [] >>= fun x =>
      .ok ((x.2.outcome "local" true).logText ("local " ++ debug p))) = _
    rw [hrecord]
    rfl
  · rw [hentries]
    exact hmirrors.relabel _ _

omit tr w p in
theorem stamp_eq_self (s : EventStamp) : s.eq s = true := by
  rw [Stamp.eq, Bool.and_eq_true, Bool.and_eq_true]
  exact ⟨⟨beq_self_eq_true _, beq_self_eq_true _⟩, (VectorClock.eq_iff _ _).mpr fun _ => rfl⟩

theorem channel_check (h : Authority w.k w.channelObjects w.regions) {m : CapModel}
    (hm : m.Known w.regions.length) {c : ℕ} (hobj : m.obj = .channel c) {required : Rights}
    (hrequired : World.channelRights.contains required = true) : w.k.check m.cap required = .ok () := by
  obtain ⟨hc, hepoch, hrights⟩ := hm.channel c hobj
  refine Kernel.check_eq_ok_iff.mpr ⟨?_, Rights.contains_trans hrights hrequired⟩
  rw [Kernel.Live, CapModel.cap, hobj, hepoch]
  exact h.channel c hc

omit tr w p in
theorem delivered_entries {proc : Process} {models : List CapModel} (hlength : models.length ≤ 2 ^ 32) :
    ∀ x ∈ (proc.grantAll (models.map CapModel.cap)).1.zip models,
      (proc.grantAll (models.map CapModel.cap)).2.capability x.1 = some x.2.cap := by
  have hresolves := proc.grantAll_resolves (models.map CapModel.cap) (by rwa [List.length_map])
  rw [List.map_map] at hresolves
  have hforall : List.Forall₂
      (fun a m => (proc.grantAll (models.map CapModel.cap)).2.capability a = some (CapModel.cap m))
      (proc.grantAll (models.map CapModel.cap)).1 models := by
    rw [← List.forall₂_eq_eq_eq, List.forall₂_map_left_iff, List.forall₂_map_right_iff] at hresolves
    exact hresolves
  intro x hx
  exact List.forall₂_zip hforall hx

omit tr w p in
theorem stashed_entries {n : ℕ} {models : List CapModel} (hmodels : ∀ m ∈ models, m.Known n)
    (handles : List Handle) :
    Stashed n ((handles.zip models).map fun x => (x.2.cap, x.2)) := by
  intro y hy
  obtain ⟨x, hx, rfl⟩ := List.mem_map.mp hy
  exact ⟨rfl, hmodels x.2 (List.of_mem_zip hx).2⟩

section Receptions
variable {pm : ProcModel} {proc : Process} {c : ℕ} {cap : Capability}

private theorem receive_nothing (h : Mirrors tr w) (hi : w.procs[p]? = some pm)
    (hpid : pm.pid = pidAt p) (hproc : w.sched.process pm.pid = some proc)
    (hm : Mirrored w.regions.length pm proc) (hchan : w.channelCap p c = .ok cap)
    (hcheck : w.k.check cap .READ = .ok ()) (hqueue : w.inFlight[c]? = some [])
    (hqueued : w.channels.queues[cap.object]? = some []) :
    ∃ w', w.executeReceive p c = .ok w' ∧
      Mirrors (tr ++ [entry System.step w.system (.receive cap pm.pid)]) w' := by
  have hreceive := ChannelRegistry.receive_of_nil (p := proc) hcheck hqueued
  let w₁ : World := { w.setProcess pm.pid proc with inFlight := w.inFlight.set c [] }
  have hstep : w.system.step (.receive cap pm.pid) = (.ok (.delivery none), w₁.system) := by
    simp only [System.step, System.withProcess, World.system, hproc, hreceive]
    rfl
  have hself : w₁.inFlight = w.inFlight := set_self hqueue
  have hmirrors : Mirrors (tr ++ [entry System.step w.system (.receive cap pm.pid)]) w₁ := by
    refine h.rewrite _ w₁ (congrArg Prod.snd hstep) ?_ rfl rfl h.authority h.storage ?_ ?_ h.stashed ?_
    · rw [entry, hstep]
      rfl
    · have htables : Tables w.regions.length w₁.sched (w.procs.set p pm) := by
        refine h.tables.set h.procs hi hm fun id => ?_
        rw [← hpid]
        exact process_setProcess w.sched pm.pid proc id
      rwa [set_self hi] at htables
    · rw [hself]
      exact h.queues
    · rw [hself, entry, hstep]
      exact h.chronicled
  refine ⟨(w₁.logText ("receive " ++ debug p ++ " " ++ debug c ++ " -> " ++ debug false)).outcome
    "receive" false, ?_, hmirrors.relabel _ _⟩
  rw [World.executeReceive, hchan, ok_bind, index_eq hi, ok_bind, process_eq hi hproc, ok_bind]
  simp only [hreceive, index_eq hqueue, ok_bind]
  rfl

def World.received (w : World) (cap : Capability) (pid : ProcessId) (q : Process) (ms : List Message) :
    System := { w.system with
  sched := w.sched.setProcess pid q
  channels := ⟨w.channels.queues.insert cap.object ms⟩ }

/-- The world after a delivery mirrors the system after it, if the reception is recorded. -/
private theorem delivery_mirrors (h : Mirrors tr w) (hi : w.procs[p]? = some pm)
    (hpid : pm.pid = pidAt p) (hproc : w.sched.process pm.pid = some proc)
    (hm : Mirrored w.regions.length pm proc) (hc : c < channelCount) (hobject : cap.object = objectAt c)
    {mm : MessageModel} {msg : Message} {queue : List MessageModel} {ms : List Message}
    (hqueue : w.inFlight[c]? = some (mm :: queue))
    (hfirst : Sent w.regions.length w.stamps mm msg)
    (hrest : List.Forall₂ (Sent w.regions.length w.stamps) queue ms)
    (hsparing : Sparing (tr ++ [entry System.step w.system (.receive cap pm.pid)]))
    {granted : List Handle × Process} (hgranted : granted = proc.grantAll (mm.caps.map CapModel.cap))
    {q : Process} (hq : q = (granted.2.recordReceive msg.sentAt).2) {receivedAt : EventStamp}
    (hstep : w.system.step (.receive cap pm.pid) = (.ok (.delivery (some
      ⟨msg.data, granted.1, msg.sentAt, receivedAt⟩)), w.received cap pm.pid q ms))
    {preds : List (List ℕ)} {lastEvent : List (Option ℕ)}
    (hrecorded : Chronicled (((causality tr).setInFlight (objectAt c)
        (queue.map MessageModel.sendEvent)).record (pidAt p) receivedAt [mm.sendEvent])
      w.procs.length (w.stamps ++ [receivedAt]) preds lastEvent (w.inFlight.set c queue)) :
    Mirrors (tr ++ [entry System.step w.system (.receive cap pm.pid)]) { w.setProcess pm.pid q with
      channels := ⟨w.channels.queues.insert cap.object ms⟩
      inFlight := w.inFlight.set c queue
      procs := w.procs.set p { pm with table := insertAll pm.table (granted.1.zip mm.caps) }
      stash := w.stash ++ (granted.1.zip mm.caps).map fun x => (x.2.cap, x.2)
      stamps := w.stamps ++ [receivedAt]
      lastEvent, preds } := by
  have hlength : grantCount pm.pid tr + mm.caps.length ≤ 2 ^ 32 := by
    have hbound := hsparing pm.pid
    rw [grantCount_snoc, entry, hstep, SystemEntry.grantsInto] at hbound
    simp only [SystemEntry.granted, if_true, hgranted, Process.grantAll_length, List.length_map]
      at hbound
    exact hbound.le
  refine h.rewrite _ _ (congrArg Prod.snd hstep) (by rw [entry, hstep]; rfl) (List.length_set ..) rfl
    h.authority h.storage ?_ ?_ ?_ ?_
  · have hdelivered : Mirrored w.regions.length
        { pm with table := insertAll pm.table (granted.1.zip mm.caps) } granted.2 := by
      rw [hgranted]
      exact hm.deliver h.authority.few (h.upto hsparing.earlier hproc) hlength hfirst.known
    have hcaps : q.capabilities = granted.2.capabilities := by
      rw [hq]
      rfl
    refine h.tables.set h.procs hi (hdelivered.frame hcaps) fun id => ?_
    rw [← hpid]
    exact process_setProcess w.sched pm.pid q id
  · have hqueues := (h.queues.set hc hrest).mono le_rfl [receivedAt]
    rwa [← hobject] at hqueues
  · exact h.stashed.append (stashed_entries hfirst.known _)
  · have hsends := h.chronicled.inFlight c _ hqueue
    have hledger : (causality tr).step (entry System.step w.system (.receive cap pm.pid)) =
        ((causality tr).setInFlight (objectAt c) (queue.map MessageModel.sendEvent)).record
          (pidAt p) receivedAt [mm.sendEvent] := by
      rw [entry, hstep]
      change ((causality tr).record pm.pid receivedAt
        ((causality tr).inFlight cap.object).head?.toList).setInFlight cap.object
          ((causality tr).inFlight cap.object).tail = _
      rw [hobject, ← hsends, hpid]
      rfl
    rw [hledger]
    exact hrecorded

private theorem receive_message (h : Mirrors tr w) (hp : p < w.procs.length)
    (hi : w.procs[p]? = some pm) (hpid : pm.pid = pidAt p)
    (hproc : w.sched.process pm.pid = some proc) (hm : Mirrored w.regions.length pm proc)
    (hc : c < channelCount) (hchan : w.channelCap p c = .ok cap) (hobject : cap.object = objectAt c)
    (hcheck : w.k.check cap .READ = .ok ()) {mm : MessageModel} {msg : Message}
    {queue : List MessageModel} {ms : List Message} (hqueue : w.inFlight[c]? = some (mm :: queue))
    (hqueued : w.channels.queues[cap.object]? = some (msg :: ms))
    (hfirst : Sent w.regions.length w.stamps mm msg)
    (hrest : List.Forall₂ (Sent w.regions.length w.stamps) queue ms)
    (hsparing : Sparing (tr ++ [entry System.step w.system (.receive cap pm.pid)])) :
    ∃ w', w.executeReceive p c = .ok w' ∧
      Mirrors (tr ++ [entry System.step w.system (.receive cap pm.pid)]) w' := by
  have hreceive := ChannelRegistry.receive_of_cons (p := proc) hcheck hqueued
  rw [hfirst.caps] at hreceive
  let caps : List Capability := mm.caps.map CapModel.cap
  let q : Process := ((proc.grantAll caps).2.recordReceive msg.sentAt).2
  let receivedAt : EventStamp := (proc.clock.receiveEvent msg.sentAt).1
  let entries : List (Handle × CapModel) := (proc.grantAll caps).1.zip mm.caps
  have hstep : w.system.step (.receive cap pm.pid) = (.ok (.delivery (some
      ⟨msg.data, (proc.grantAll caps).1, msg.sentAt, receivedAt⟩)), w.received cap pm.pid q ms) := by
    simp only [System.step, System.withProcess, World.system, hproc, hreceive]
    rfl
  have hlength : mm.caps.length ≤ 2 ^ 32 := by
    have hbound := hsparing pm.pid
    rw [grantCount_snoc, entry, hstep, SystemEntry.grantsInto] at hbound
    simp only [SystemEntry.granted, if_true, Process.grantAll_length, caps, List.length_map] at hbound
    omega
  -- the model after the message has left the queue, with its counts and texts
  let w₁ : World := World.outcome (World.logText { w.setProcess pm.pid q with
      channels := ⟨w.channels.queues.insert cap.object ms⟩, inFlight := w.inFlight.set c queue }
    ("receive " ++ debug p ++ " " ++ debug c ++ " -> " ++ debug true)) "receive" true
  let w₂ : World := { w₁ with
    procs := w.procs.set p { pm with table := insertAll pm.table entries }
    stash := w.stash ++ entries.map fun x => (x.2.cap, x.2) }
  have hmirror : World.mirrorAll p pm.pid entries w₁ = .ok w₂ := by
    apply mirrorAll_eq (w := w₁) (p := q) hi
    · exact (process_setProcess w.sched pm.pid q pm.pid).trans (if_pos rfl)
    · exact delivered_entries hlength
  obtain ⟨lastEvent, preds, hrecord, hrecorded⟩ := recordEvent_eq (w := w₂)
    (h.chronicled.setInFlight h.queues.length hc queue) hp h.procs receivedAt [mm.sendEvent]
  have hmirrors := delivery_mirrors h hi hpid hproc hm hc hobject hqueue hfirst hrest hsparing rfl
    (rfl : q = _) hstep hrecorded
  refine ⟨_, ?_, hmirrors.relabel w₁.summary w₁.log⟩
  rw [World.executeReceive, hchan, ok_bind, index_eq hi, ok_bind, process_eq hi hproc, ok_bind]
  simp only [hreceive, index_eq hqueue, ok_bind]
  change (do
    let sentAt ← index w.stamps mm.sendEvent
    ensure (msg.sentAt.eq sentAt) "delivered message carries the wrong send stamp"
    ensure ((proc.grantAll caps).1.length == mm.caps.length) ("delivered " ++
      debug (proc.grantAll caps).1.length ++ " caps, model " ++ debug mm.caps.length)
    let w ← World.mirrorAll p pm.pid entries w₁
    let x ← w.recordEvent p receivedAt [mm.sendEvent]
    pure x.2 : Check World) = .ok { w₂ with lastEvent, stamps := w.stamps ++ [receivedAt], preds }
  rw [index_eq hfirst.sentAt, ok_bind, ensure_true _ (stamp_eq_self _), ok_bind, ensure_true, ok_bind,
    hmirror, ok_bind, hrecord]
  · rfl
  · rw [Process.grantAll_length, List.length_map]
    exact beq_self_eq_true _

end Receptions

theorem executeReceive_mirrors (h : Mirrors tr w) (hp : p < w.procs.length) {c : ℕ}
    (hc : c < channelCount) (hsparing : Sparing (tr ++ w.entries (.receive p c))) :
    ∃ w', w.executeReceive p c = .ok w' ∧ Mirrors (tr ++ w.entries (.receive p c)) w' := by
  obtain ⟨pm, proc, hi, hpid, hproc, hm⟩ := h.process hp
  have hsub : ∀ (a : Handle) (m : CapModel), pm.table[a]? = some m → proc.capability a = some m.cap := by
    intro a m ha
    rw [hm.toHeld.capability, ha, Option.map_some]
  obtain ⟨m, hchan, hobj, hknown⟩ := channelCap_eq hi hproc hm hsub hc
  have hentries : w.entries (.receive p c) = [entry System.step w.system (.receive m.cap pm.pid)] := by
    rw [World.entries, World.calls, World.callsOf, hchan, ok_bind, index_eq hi]
    rfl
  have hcheck : w.k.check m.cap .READ = .ok () := channel_check h.authority hknown hobj (by decide)
  have hobject : m.cap.object = objectAt c := by rw [CapModel.cap, hobj]; rfl
  have hlt : c < w.inFlight.length := by rwa [h.queues.length]
  obtain ⟨queue, hqueue⟩ := lookup hlt
  obtain ⟨ms, hqueued, hsent⟩ := h.queues.queued c queue hqueue
  rw [← hobject] at hqueued
  rw [hentries] at hsparing ⊢
  cases hsent with
  | nil => exact receive_nothing h hi hpid hproc hm hchan hcheck hqueue hqueued
  | cons hfirst hrest =>
    exact receive_message h hp hi hpid hproc hm hc hchan hobject hcheck hqueue hqueued hfirst hrest
      hsparing

end Operations
end Muaddib.Chaos
