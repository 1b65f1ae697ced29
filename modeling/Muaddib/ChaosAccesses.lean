import Muaddib.ChaosCalls

/-! # Accesses to regions

Reads, writes, revocations and destructions return what the model predicts. -/
namespace Muaddib.Chaos
open LabelledRuns

section Regions
variable {k : Kernel} {objects : List ObjectId} {regions : List RegionModel} {mem mem' : RegionRegistry}
  {r : ℕ} {region region' : RegionModel}

theorem Authority.object_ne (h : Authority k objects regions) {r' : ℕ}
    (hr : regions[r]? = some region) (hr' : regions[r']? = some region') (hne : r ≠ r') :
    region.object ≠ region'.object := by
  have hlt : r < regions.length := (List.getElem?_eq_some_iff.mp hr).1
  have hlt' : r' < regions.length := (List.getElem?_eq_some_iff.mp hr').1
  have hfew := h.few
  rw [(h.region r region hr).1, (h.region r' region' hr').1, Ne, objectAt_inj (by omega) (by omega)]
  omega

/-- What the registry holds for one region changes together with the model of it. -/
theorem Storage.set (h : Storage mem regions) (hauthority : Authority k objects regions)
    (hr : regions[r]? = some region) (hobject : region'.object = region.object)
    (hregions : ∀ o, mem'.regions[o]? = if region.object = o then
      (if region'.alive then some region'.bytes else none) else mem.regions[o]?)
    (hcount : mem'.regionCount =
      ((regions.set r region').filter fun region => region.alive).length) :
    Storage mem' (regions.set r region') := by
  have hlt : r < regions.length := (List.getElem?_eq_some_iff.mp hr).1
  refine ⟨fun region₁ hregion₁ => ?_, fun o ho => ?_, hcount⟩
  · obtain ⟨i, hi⟩ := List.getElem?_of_mem hregion₁
    rw [List.getElem?_set, if_pos hlt] at hi
    split at hi
    · obtain rfl := Option.some.inj hi
      rw [hobject, hregions, if_pos rfl]
    · next hne =>
      rw [hregions, if_neg (hauthority.object_ne hr hi hne)]
      exact h.bytes region₁ (List.mem_of_getElem? hi)
  · rw [Std.ExtTreeMap.mem_iff_isSome_getElem?, hregions] at ho
    split at ho
    · next heq => exact ⟨region', List.mem_set hlt region', hobject.trans heq⟩
    · next hne =>
      rw [← Std.ExtTreeMap.mem_iff_isSome_getElem?] at ho
      obtain ⟨region₁, hregion₁, rfl⟩ := h.stored o ho
      obtain ⟨i, hi⟩ := List.getElem?_of_mem hregion₁
      refine ⟨region₁, List.mem_of_getElem? (i := i) ?_, rfl⟩
      rw [List.getElem?_set, if_neg, hi]
      rintro rfl
      exact hne (congrArg RegionModel.object (Option.some.inj (hr.symm.trans hi)))

theorem count_set (hr : regions[r]? = some region) (region' : RegionModel) :
    ((regions.set r region').filter fun region => region.alive).length =
      (regions.filter fun region => region.alive).length - (if region.alive then 1 else 0) +
        if region'.alive then 1 else 0 := by
  obtain ⟨hlt, rfl⟩ := List.getElem?_eq_some_iff.mp hr
  rw [← List.countP_eq_length_filter, ← List.countP_eq_length_filter, List.countP_set hlt]

theorem count_pos (hr : regions[r]? = some region) (halive : region.alive = true) :
    0 < (regions.filter fun region => region.alive).length := by
  apply List.length_pos_of_mem (a := region)
  exact List.mem_filter.mpr ⟨List.mem_of_getElem? hr, halive⟩

theorem Storage.write (h : Storage mem regions) (hauthority : Authority k objects regions)
    (hr : regions[r]? = some region) (halive : region.alive = true) {o : ObjectId}
    (ho : region.object = o) (bytes : Bytes) :
    Storage ⟨mem.regions.insert o bytes⟩ (regions.set r { region with bytes }) := by
  subst ho
  have hheld := h.bytes region (List.mem_of_getElem? hr)
  rw [if_pos halive] at hheld
  refine h.set hauthority hr ?_ (fun o => ?_) ?_
  · rfl
  · rw [FiniteMaps.getElem?_insert, if_pos halive]
  · have hcontains : mem.regions.contains region.object = true := by
      rw [Std.ExtTreeMap.contains_eq_isSome_getElem?, hheld]
      rfl
    have hsize : (mem.regions.insert region.object bytes).size = mem.regions.size := by
      rw [Std.ExtTreeMap.size_insert, if_pos hcontains]
    have hpos := count_pos hr halive
    rw [count_set hr, if_pos halive, Nat.sub_add_cancel hpos, ← h.count]
    exact hsize

theorem Storage.destroy (h : Storage mem regions) (hauthority : Authority k objects regions)
    (hr : regions[r]? = some region) (halive : region.alive = true) {o : ObjectId}
    (ho : region.object = o) :
    Storage ⟨mem.regions.erase o⟩ (regions.set r { region with alive := false }) := by
  subst ho
  have hheld := h.bytes region (List.mem_of_getElem? hr)
  rw [if_pos halive] at hheld
  refine h.set hauthority hr ?_ (fun o => ?_) ?_
  · rfl
  · rw [FiniteMaps.getElem?_erase]
    rfl
  · have hcontains : mem.regions.contains region.object = true := by
      rw [Std.ExtTreeMap.contains_eq_isSome_getElem?, hheld]
      rfl
    have hsize : (mem.regions.erase region.object).size = mem.regions.size - 1 := by
      rw [Std.ExtTreeMap.size_erase, if_pos hcontains]
    rw [count_set hr, if_pos halive, ← h.count]
    exact hsize

theorem Authority.destroy (h : Authority k objects regions) (hr : regions[r]? = some region)
    {o : ObjectId} (ho : region.object = o) :
    Authority (k.remove o) objects (regions.set r { region with alive := false }) := by
  subst ho
  refine h.set hr ?_ (k.remove_nextId _) fun o => ?_
  · rfl
  · rw [Kernel.remove_epochs]
    rfl

theorem Authority.setBytes (h : Authority k objects regions) (hr : regions[r]? = some region)
    (bytes : Bytes) : Authority k objects (regions.set r { region with bytes }) := by
  refine h.set hr ?_ rfl fun o => ?_
  · rfl
  · split
    · next heq =>
      subst heq
      exact (h.region r region hr).2
    · rfl

end Regions

section Predictions
variable {w : World} {m : CapModel}

/-- A capability that passes a check is for a region that is alive, or for a channel. -/
theorem region_of_checked (h : Authority w.k w.channelObjects w.regions)
    (hstorage : Storage w.mem w.regions) (hm : m.Known w.regions.length) {r : ℕ}
    (hobj : m.obj = .region r) {required : Rights} (hcheck : w.k.check m.cap required = .ok ()) :
    ∃ region, w.regions[r]? = some region ∧ region.object = m.cap.object ∧ region.alive = true ∧
      region.epoch = m.epoch ∧ w.mem.regions[m.cap.object]? = some region.bytes := by
  obtain ⟨region, hr, hobject, halive, hepoch⟩ :=
    h.live_region hm hobj (Kernel.check_eq_ok_iff.mp hcheck).1
  have hbytes := hstorage.bytes region (List.mem_of_getElem? hr)
  rw [if_pos halive, hobject] at hbytes
  exact ⟨region, hr, hobject, halive, hepoch, hbytes⟩

theorem no_bytes_of_channel (h : Authority w.k w.channelObjects w.regions)
    (hstorage : Storage w.mem w.regions) (hm : m.Known w.regions.length) {c : ℕ}
    (hobj : m.obj = .channel c) : w.mem.regions[m.cap.object]? = none := by
  by_contra hsome
  have hmem : m.cap.object ∈ w.mem.regions := by
    rwa [Std.ExtTreeMap.mem_iff_isSome_getElem?, Option.isSome_iff_ne_none]
  obtain ⟨region, hregion, hobject⟩ := hstorage.stored _ hmem
  obtain ⟨r, hr⟩ := List.getElem?_of_mem hregion
  have hlt : r < w.regions.length := (List.getElem?_eq_some_iff.mp hr).1
  have hfew := h.few
  have hc := (hm.channel c hobj).1
  rw [(h.region r region hr).1, CapModel.cap, hobj, Obj.slot, objectAt_inj (by omega) (by omega)]
    at hobject
  omega

theorem predictAccess_eq (h : Authority w.k w.channelObjects w.regions)
    (hstorage : Storage w.mem w.regions) (hm : m.Known w.regions.length) (required : Rights)
    (offset len : ℕ) : w.predictAccess m required offset len =
      .ok ((w.mem.checkedRange w.k m.cap required offset len).map fun _ => ()) := by
  rw [World.predictAccess, predictCheck_eq h hm, ok_bind, RegionRegistry.checkedRange]
  cases hcheck : w.k.check m.cap required with
  | error e => rfl
  | ok u =>
    simp only [objectId_eq h hm, ok_bind]
    cases hobj : m.obj with
    | channel c =>
      rw [no_bytes_of_channel h hstorage hm hobj]
      rfl
    | region r =>
      obtain ⟨region, hr, -, -, -, hbytes⟩ := region_of_checked h hstorage hm hobj hcheck
      simp only [hbytes, index_eq hr, ok_bind]
      cases hsum : checkedAdd offset len with
      | none => rfl
      | some stop =>
        by_cases hfits : stop ≤ region.bytes.length
        · simp only [hfits, if_true]
          rfl
        · simp only [hfits, if_false]
          rfl

end Predictions

theorem Mirrors.relabel {tr : List SystemEntry} {w : World} (h : Mirrors tr w) (summary : ChaosSummary)
    (log : UInt64) : Mirrors tr { w with summary, log } :=
  ⟨h.run, h.spawns, h.procs, h.granted, h.authority, h.storage, h.tables, h.queues, h.stashed,
    h.chronicled⟩

theorem noteAccess_eq (w : World) (name : String) (stale ok refusedAsDead : Bool) (shown : String) :
    ∃ summary log, w.noteAccess name stale ok refusedAsDead shown = { w with summary, log } := by
  unfold World.noteAccess
  split <;> exact ⟨_, _, rfl⟩

section Operations
variable {tr : List SystemEntry} {w : World} {p : ℕ}

theorem Mirrors.rewrite (h : Mirrors tr w) (call : Call) (w' : World)
    (hstep : (w.system.step call).2 = w'.system)
    (hspawn : SystemEntry.isSpawn (entry System.step w.system call) = false)
    (hprocs : w'.procs.length = w.procs.length) (hregions : w'.regions.length = w.regions.length)
    (hauthority : Authority w'.k w'.channelObjects w'.regions) (hstorage : Storage w'.mem w'.regions)
    (htables : Tables w.regions.length w'.sched w'.procs)
    (hqueues : Queues w.regions.length w'.channels w'.inFlight w'.stamps)
    (hstashed : Stashed w.regions.length w'.stash)
    (hchronicled : Chronicled ((causality tr).step (entry System.step w.system call)) w.procs.length
      w'.stamps w'.preds w'.lastEvent w'.inFlight) :
    Mirrors (tr ++ [entry System.step w.system call]) w' := by
  have hrun := h.run.call call trivial
  rw [hstep] at hrun
  refine ⟨hrun, ?_, ?_, ?_, hauthority, hstorage, ?_, ?_, ?_, ?_⟩
  · rw [spawnCount_snoc, hspawn, h.spawns, hprocs]
    rfl
  · rw [hprocs]
    exact h.procs
  · rw [hregions, hprocs]
    exact granted_mono h.granted le_rfl
  · rwa [hregions]
  · rwa [hregions]
  · rwa [hregions]
  · rwa [hprocs, causality_snoc]

theorem Mirrors.access (h : Mirrors tr w) (call : Call) (k : Kernel) (mem : RegionRegistry)
    {regions : List RegionModel}
    (hstep : (w.system.step call).2 = { w.system with kernel := k, memory := mem })
    (hspawn : SystemEntry.isSpawn (entry System.step w.system call) = false)
    (hledger : (causality tr).step (entry System.step w.system call) = causality tr)
    (hlength : regions.length = w.regions.length) (hauthority : Authority k w.channelObjects regions)
    (hstorage : Storage mem regions) :
    Mirrors (tr ++ [entry System.step w.system call]) { w with k, mem, regions } := by
  have hchronicled := h.chronicled
  rw [← hledger] at hchronicled
  exact h.rewrite call { w with k, mem, regions } hstep hspawn rfl hlength hauthority hstorage h.tables
    h.queues h.stashed hchronicled

theorem executeRead_mirrors (h : Mirrors tr w) (hp : p < w.procs.length) (pick : Pick)
    (regionsOnly : Bool) (offset len : ℕ) : ∃ w', w.executeRead p pick regionsOnly offset len = .ok w' ∧
      Mirrors (tr ++ w.entries (.read p pick regionsOnly offset len)) w' := by
  obtain ⟨pm, proc, hi, -, hproc, hm⟩ := h.process hp
  rcases pickCap_eq hi hproc hm h.stashed pick regionsOnly with hnone | ⟨m, stale, hpick, hknown, -⟩
  · have hentries : w.entries (.read p pick regionsOnly offset len) = [] := by
      rw [World.entries, World.calls, World.callsOf, hnone]
      rfl
    refine ⟨w, ?_, ?_⟩
    · rw [World.executeRead, hnone]
      rfl
    · rwa [hentries, List.append_nil]
  · have hentries : w.entries (.read p pick regionsOnly offset len) =
        [entry System.step w.system (.read m.cap offset len)] := by
      rw [World.entries, World.calls, World.callsOf, hpick]
      rfl
    have hpredict := predictAccess_eq h.authority h.storage hknown .READ offset len
    rw [hentries]
    rcases w.mem.checkedRange_cases w.k m.cap .READ offset len with ⟨e, he⟩ | ⟨bytes, hc, hb, hlen, hok⟩
    · have hread : w.mem.read w.k m.cap offset len = .error (.err e) := by
        rw [RegionRegistry.read, he]
      have hafter := h.access (.read m.cap offset len) w.k w.mem rfl
        (by simp only [entry, System.step, World.system, hread]; rfl) rfl rfl h.authority h.storage
      rw [he] at hpredict
      obtain ⟨summary, log, hnote⟩ := noteAccess_eq w "read" stale false
        (deadMem (α := Bytes) (.error e)) (debug (.error e : Except MemoryError Bytes))
      refine ⟨_, ?_, hafter.relabel summary log⟩
      simp only [World.executeRead, hpick, ok_bind, hpredict, hread, returned]
      refine (ensure_agrees _ _ _).trans (congrArg Except.ok hnote)
    · have hread : w.mem.read w.k m.cap offset len =
          .ok (RegionRegistry.slice bytes offset (offset + len)) := by
        simp only [RegionRegistry.read, hok, hb]
      have hafter := h.access (.read m.cap offset len) w.k w.mem rfl
        (by simp only [entry, System.step, World.system, hread]; rfl) rfl rfl h.authority h.storage
      rw [hok] at hpredict
      cases hobj : m.obj with
      | channel c =>
        rw [no_bytes_of_channel h.authority h.storage hknown hobj] at hb
        cases hb
      | region r =>
        obtain ⟨region, hr, -, -, -, hbytes⟩ := region_of_checked h.authority h.storage hknown hobj hc
        obtain rfl := Option.some.inj (hb.symm.trans hbytes)
        let result : Except MemoryError Bytes :=
          .ok (RegionRegistry.slice region.bytes offset (offset + len))
        obtain ⟨summary, log, hnote⟩ :=
          noteAccess_eq w "read" stale true (deadMem result) (debug result)
        refine ⟨_, ?_, hafter.relabel summary log⟩
        simp only [World.executeRead, hpick, ok_bind, hpredict, hread, returned, Except.map,
          World.regionOf, hobj, index_eq hr]
        exact (ensure_agrees _ _ _).trans (congrArg Except.ok hnote)

theorem executeWrite_mirrors (h : Mirrors tr w) (hp : p < w.procs.length) (pick : Pick)
    (regionsOnly : Bool) (offset : ℕ) {len : ℕ} (hlen : len < 2 ^ 63) (byte : UInt8) :
    ∃ w', w.executeWrite p pick regionsOnly offset len byte = .ok w' ∧
      Mirrors (tr ++ w.entries (.write p pick regionsOnly offset len byte)) w' := by
  obtain ⟨pm, proc, hi, -, hproc, hm⟩ := h.process hp
  have hvec : vecOf byte len = .ok (List.replicate len byte) := if_pos hlen
  rcases pickCap_eq hi hproc hm h.stashed pick regionsOnly with hnone | ⟨m, stale, hpick, hknown, -⟩
  · have hentries : w.entries (.write p pick regionsOnly offset len byte) = [] := by
      rw [World.entries, World.calls, World.callsOf, hnone]
      rfl
    refine ⟨w, ?_, ?_⟩
    · rw [World.executeWrite, hnone]
      rfl
    · rwa [hentries, List.append_nil]
  · have hentries : w.entries (.write p pick regionsOnly offset len byte) =
        [entry System.step w.system (.write m.cap offset (List.replicate len byte))] := by
      rw [World.entries, World.calls, World.callsOf, hpick, ok_bind]
      simp only [hvec, ok_bind]
      rfl
    have hpredict := predictAccess_eq h.authority h.storage hknown .WRITE offset len
    rw [hentries]
    rcases w.mem.checkedRange_cases w.k m.cap .WRITE offset len with ⟨e, he⟩ | ⟨bytes, hc, hb, hfits, hok⟩
    · have hwrite : w.mem.write w.k m.cap offset (List.replicate len byte) =
          (.error (.err e), w.mem) := by
        rw [RegionRegistry.write, List.length_replicate, he]
      have hafter := h.access (.write m.cap offset (List.replicate len byte)) w.k w.mem
        (by simp only [System.step, World.system, hwrite])
        (by simp only [entry, System.step, World.system, hwrite]; rfl) rfl rfl h.authority h.storage
      rw [he] at hpredict
      obtain ⟨summary, log, hnote⟩ := noteAccess_eq w "write" stale false
        (deadMem (α := Unit) (.error e)) (debug (.error e : Except MemoryError Unit))
      refine ⟨_, ?_, hafter.relabel summary log⟩
      simp only [World.executeWrite, hpick, ok_bind, hpredict, hvec, hwrite, returned]
      exact (ensure_agrees _ _ _).trans (congrArg Except.ok hnote)
    · have hwrite : w.mem.write w.k m.cap offset (List.replicate len byte) = (.ok (),
          ⟨w.mem.regions.insert m.cap.object
            (RegionRegistry.overwrite bytes offset (List.replicate len byte))⟩) := by
        simp only [RegionRegistry.write, List.length_replicate, hok, hb]
      rw [hok] at hpredict
      cases hobj : m.obj with
      | channel c =>
        rw [no_bytes_of_channel h.authority h.storage hknown hobj] at hb
        cases hb
      | region r =>
        obtain ⟨region, hr, hobject, halive, -, hbytes⟩ :=
          region_of_checked h.authority h.storage hknown hobj hc
        obtain rfl := Option.some.inj (hb.symm.trans hbytes)
        let bytes := RegionRegistry.overwrite region.bytes offset (List.replicate len byte)
        have hstorage := h.storage.write h.authority hr halive hobject bytes
        have hafter := h.access (.write m.cap offset (List.replicate len byte)) w.k
          ⟨w.mem.regions.insert m.cap.object bytes⟩
          (by simp only [System.step, World.system, hwrite]; rfl)
          (by simp only [entry, System.step, World.system, hwrite]; rfl) rfl (List.length_set ..)
          (h.authority.setBytes hr bytes) hstorage
        obtain ⟨summary, log, hnote⟩ := noteAccess_eq
          { w with mem := ⟨w.mem.regions.insert m.cap.object bytes⟩ } "write" stale true
          (deadMem (.ok ())) (debug (.ok () : Except MemoryError Unit))
        refine ⟨_, ?_, hafter.relabel summary log⟩
        simp only [World.executeWrite, hpick, ok_bind, hpredict, hvec, hwrite, returned]
        refine (ensure_agrees _ _ _).trans ?_
        simp only [isOk, bytes, hnote, World.regionOf, hobj, ok_bind, index_eq hr, if_true]
        rfl

theorem executeRevoke_mirrors (h : Mirrors tr w) (hp : p < w.procs.length) (pick : Pick) :
    ∃ w', w.executeRevoke p pick = .ok w' ∧ Mirrors (tr ++ w.entries (.revoke p pick)) w' := by
  obtain ⟨pm, proc, hi, -, hproc, hm⟩ := h.process hp
  rcases pickCap_eq hi hproc hm h.stashed pick true with hnone | ⟨m, stale, hpick, hknown, hregion⟩
  · have hentries : w.entries (.revoke p pick) = [] := by
      rw [World.entries, World.calls, World.callsOf, hnone]
      rfl
    refine ⟨w, ?_, ?_⟩
    · rw [World.executeRevoke, hnone]
      rfl
    · rwa [hentries, List.append_nil]
  · have hentries : w.entries (.revoke p pick) = [entry System.step w.system (.revoke m.cap)] := by
      rw [World.entries, World.calls, World.callsOf, hpick]
      rfl
    have hpredict := predictCheck_eq h.authority hknown .DESTROY
    rw [hentries]
    rcases w.k.check_cases m.cap .DESTROY with ⟨hc, hl, hd⟩ | ⟨e, he⟩
    · have hrevoke := Kernel.revoke_of_live hl hd
      rw [hc] at hpredict
      cases hobj : m.obj with
      | channel c =>
        have hregion := hregion rfl
        rw [hobj] at hregion
        cases hregion
      | region r =>
        obtain ⟨region, hr, hobject, halive, hepoch, -⟩ :=
          region_of_checked h.authority h.storage hknown hobj hc
        have hstorage : Storage w.mem (w.regions.set r { region with epoch := m.cap.epoch + 1 }) :=
          h.storage.congr (content_set hr rfl)
        have hafter := h.access (.revoke m.cap) (w.k.bump m.cap.object m.cap.epoch) w.mem
          (by simp only [System.step, World.system, hrevoke])
          (by simp only [entry, System.step, World.system, hrevoke]; rfl) rfl (List.length_set ..)
          (h.authority.bump hr halive hobject) hstorage
        obtain ⟨summary, log, hnote⟩ := noteAccess_eq
          { w with k := w.k.bump m.cap.object m.cap.epoch } "revoke" stale true
          (deadCap (.ok ())) (debug (.ok () : Except CapError Unit))
        refine ⟨_, ?_, hafter.relabel summary log⟩
        simp only [World.executeRevoke, hpick, ok_bind, hpredict, hrevoke, returned]
        refine (ensure_agrees _ _ _).trans ?_
        simp only [isOk, hnote, World.regionOf, hobj, ok_bind, index_eq hr, if_true, hepoch]
        rfl
    · have hrevoke := Kernel.revoke_of_error he
      rw [he] at hpredict
      have hafter := h.access (.revoke m.cap) w.k w.mem
        (by simp only [System.step, World.system, hrevoke])
        (by simp only [entry, System.step, World.system, hrevoke]; rfl) rfl rfl h.authority h.storage
      obtain ⟨summary, log, hnote⟩ := noteAccess_eq w "revoke" stale false
        (deadCap (α := Unit) (.error e)) (debug (.error e : Except CapError Unit))
      refine ⟨_, ?_, hafter.relabel summary log⟩
      simp only [World.executeRevoke, hpick, ok_bind, hpredict, hrevoke, returned]
      exact (ensure_agrees _ _ _).trans (congrArg Except.ok hnote)

theorem executeDestroy_mirrors (h : Mirrors tr w) (hp : p < w.procs.length) (pick : Pick) :
    ∃ w', w.executeDestroy p pick = .ok w' ∧ Mirrors (tr ++ w.entries (.destroy p pick)) w' := by
  obtain ⟨pm, proc, hi, -, hproc, hm⟩ := h.process hp
  rcases pickCap_eq hi hproc hm h.stashed pick true with hnone | ⟨m, stale, hpick, hknown, hregion⟩
  · have hentries : w.entries (.destroy p pick) = [] := by
      rw [World.entries, World.calls, World.callsOf, hnone]
      rfl
    refine ⟨w, ?_, ?_⟩
    · rw [World.executeDestroy, hnone]
      rfl
    · rwa [hentries, List.append_nil]
  · have hentries : w.entries (.destroy p pick) =
        [entry System.step w.system (.destroyRegion m.cap)] := by
      rw [World.entries, World.calls, World.callsOf, hpick]
      rfl
    have hpredict := predictCheck_eq h.authority hknown .DESTROY
    rw [hentries]
    rcases w.k.check_cases m.cap .DESTROY with ⟨hc, hl, hd⟩ | ⟨e, he⟩
    · rw [hc] at hpredict
      cases hobj : m.obj with
      | channel c =>
        have hregion := hregion rfl
        rw [hobj] at hregion
        cases hregion
      | region r =>
        obtain ⟨region, hr, hobject, halive, -, hbytes⟩ :=
          region_of_checked h.authority h.storage hknown hobj hc
        have hcontains : w.mem.regions.contains m.cap.object = true := by
          rw [Std.ExtTreeMap.contains_eq_isSome_getElem?, hbytes]
          rfl
        have hdestroy : w.mem.destroyRegion w.k m.cap =
            (.ok (), ⟨w.mem.regions.erase m.cap.object⟩, w.k.remove m.cap.object) := by
          simp only [RegionRegistry.destroyRegion, hc, hcontains, Kernel.destroyObject_of_live hl hd,
            if_true]
        have hafter := h.access (.destroyRegion m.cap) (w.k.remove m.cap.object)
          ⟨w.mem.regions.erase m.cap.object⟩
          (by simp only [System.step, World.system, hdestroy])
          (by simp only [entry, System.step, World.system, hdestroy]; rfl) rfl (List.length_set ..)
          (h.authority.destroy hr hobject) (h.storage.destroy h.authority hr halive hobject)
        obtain ⟨summary, log, hnote⟩ := noteAccess_eq { w with
            mem := ⟨w.mem.regions.erase m.cap.object⟩
            k := w.k.remove m.cap.object } "destroy" stale true
          (deadMem (.ok ())) (debug (.ok () : Except MemoryError Unit))
        refine ⟨_, ?_, hafter.relabel summary log⟩
        simp only [World.executeDestroy, hpick, ok_bind, hpredict, hdestroy]
        refine (ensure_agrees _ _ _).trans ?_
        simp only [isOk, hnote, World.regionOf, hobj, ok_bind, index_eq hr, if_true]
        rfl
    · have hdestroy : w.mem.destroyRegion w.k m.cap = (.error (.capability e), w.mem, w.k) := by
        simp only [RegionRegistry.destroyRegion, he]
      rw [he] at hpredict
      have hafter := h.access (.destroyRegion m.cap) w.k w.mem
        (by simp only [System.step, World.system, hdestroy])
        (by simp only [entry, System.step, World.system, hdestroy]; rfl) rfl rfl h.authority h.storage
      obtain ⟨summary, log, hnote⟩ := noteAccess_eq w "destroy" stale false
        (deadMem (α := Unit) (.error (.capability e)))
        (debug (.error (.capability e) : Except MemoryError Unit))
      refine ⟨_, ?_, hafter.relabel summary log⟩
      simp only [World.executeDestroy, hpick, ok_bind, hpredict, hdestroy]
      exact (ensure_agrees _ _ _).trans (congrArg Except.ok hnote)

end Operations
end Muaddib.Chaos
