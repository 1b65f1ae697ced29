import Muaddib.ChaosExchanges

/-! # Operations that hand over a batch

A send and a spawn succeed exactly when the model accepts the batch. -/
namespace Muaddib.Chaos
open LabelledRuns

section Batches
variable {w : World} {p : ℕ} {pm : ProcModel} {proc : Process}

/-- What the mirror has left after a batch, the process held before it. -/
theorem held_before {n : ℕ} (hm : Mirrored n pm proc) (handles : List Handle) :
    ∀ (a : Handle) (m : CapModel), (eraseAll pm.table handles)[a]? = some m →
      proc.capability a = some m.cap := by
  intro a m ha
  rw [getElem?_eraseAll] at ha
  split at ha
  · cases ha
  · rw [hm.toHeld.capability, ha, Option.map_some]

theorem HandsOver.length {k : Kernel} {batch : List (Grant × Capability)} {delivered : List CapModel}
    {regions : List RegionModel} (h : HandsOver w k batch delivered regions) :
    regions.length = w.regions.length := by
  have hlength := congrArg List.length h.contents
  rwa [List.length_map, List.length_map] at hlength

end Batches

section Operations
variable {tr : List SystemEntry} {w : World} {p : ℕ}

private theorem send_refused (h : Mirrors tr w) {c : ℕ}
    (hc : c < channelCount) {grants : List (ℕ × GrantKind)} {concrete : List (Handle × GrantKind)}
    (hconcrete : w.concreteGrants p grants = .ok concrete) {pm : ProcModel} {proc : Process}
    (hi : w.procs[p]? = some pm) (hpid : pm.pid = pidAt p) (hproc : w.sched.process pm.pid = some proc)
    (hm : Mirrored w.regions.length pm proc) {e : GrantError}
    (he : resolveGrants w.k proc (toGrants concrete) = .error e)
    (hmodel : w.applyGrantsModel p concrete = .ok (none, w)) :
    ∃ w', w.executeSend p c grants = .ok w' ∧ Mirrors (tr ++ w.entries (.send p c grants)) w' := by
  obtain ⟨m, hchan, hobj, hknown⟩ := channelCap_eq hi hproc hm (held_before hm []) hc
  have hentries : w.entries (.send p c grants) =
      [entry System.step w.system (.send m.cap pm.pid (toGrants concrete) 0)] := by
    rw [World.entries, World.calls, World.callsOf, hconcrete, ok_bind, hmodel, ok_bind]
    simp only [hchan, ok_bind, index_eq hi]
    rfl
  have hcheck : w.k.check m.cap .WRITE = .ok () := channel_check h.authority hknown hobj (by decide)
  have hobject : m.cap.object = objectAt c := by rw [CapModel.cap, hobj]; rfl
  have hlt : c < w.inFlight.length := by rwa [h.queues.length]
  obtain ⟨queue, hqueue⟩ := lookup hlt
  obtain ⟨ms, hqueued, -⟩ := h.queues.queued c queue hqueue
  rw [← hobject] at hqueued
  have hsend : w.channels.send w.k m.cap proc (toGrants concrete) 0 =
      (.error (.err (.grant e)), w.channels, w.k, proc) := by
    simp only [ChannelRegistry.send, hcheck, hqueued, he]
  let w₁ : World := w.setProcess pm.pid proc
  have hstep : w.system.step (.send m.cap pm.pid (toGrants concrete) 0) =
      (.error (.err (.ipc (.grant e))), w₁.system) := by
    simp only [System.step, System.withProcess, World.system, hproc, hsend, stopping]
    rfl
  rw [hentries]
  have hmirrors : Mirrors (tr ++ [entry System.step w.system
      (.send m.cap pm.pid (toGrants concrete) 0)]) w₁ := by
    refine h.rewrite _ w₁ (congrArg Prod.snd hstep) ?_ rfl rfl h.authority h.storage ?_ h.queues
      h.stashed ?_
    · rw [entry, hstep]
      rfl
    · have htables : Tables w.regions.length w₁.sched (w.procs.set p pm) := by
        refine h.tables.set h.procs hi hm fun id => ?_
        rw [← hpid]
        exact process_setProcess w.sched pm.pid proc id
      rwa [set_self hi] at htables
    · rw [entry, hstep]
      exact h.chronicled
  refine ⟨(w₁.logText ("send " ++ debug p ++ " " ++ debug c ++ " " ++ debug concrete ++ " -> " ++
    debug false)).outcome "send" false, ?_, hmirrors.relabel _ _⟩
  rw [World.executeSend, hconcrete, ok_bind, hmodel, ok_bind]
  simp only [hchan, ok_bind, index_eq hi, process_eq hi hproc, hsend, returned]
  rfl

/-- A send that the model accepts leaves the message on the channel. -/
private theorem send_accepted (h : Mirrors tr w) (hp : p < w.procs.length) {c : ℕ}
    (hc : c < channelCount) {grants : List (ℕ × GrantKind)} {concrete : List (Handle × GrantKind)}
    (hconcrete : w.concreteGrants p grants = .ok concrete) {pm : ProcModel} {proc : Process}
    (hi : w.procs[p]? = some pm) (hpid : pm.pid = pidAt p) (hproc : w.sched.process pm.pid = some proc)
    (hm : Mirrored w.regions.length pm proc)
    (hregions : ∀ x ∈ concrete, ∃ m, pm.table[x.1]? = some m ∧ m.obj.isRegion = true)
    {batch : List (Grant × Capability)} {delivered : List CapModel} {regions : List RegionModel}
    (hbatch : Resolved w.k proc batch) (hgrants : toGrants concrete = batch.map Prod.fst)
    (hmodel : w.applyGrantsModel p concrete = .ok (some delivered, { w with
      procs := w.procs.set p { pm with table := eraseAll pm.table (leavingHandles batch) }
      regions }))
    (hover : HandsOver w w.k batch delivered regions) :
    ∃ w', w.executeSend p c grants = .ok w' ∧ Mirrors (tr ++ w.entries (.send p c grants)) w' := by
  let pm₁ : ProcModel := { pm with table := eraseAll pm.table (leavingHandles batch) }
  let w₀ : World := { w with procs := w.procs.set p pm₁, regions }
  let q : Process := proc.depart batch
  let sentAt : EventStamp := proc.clock.sendEvent.1
  have hmodel : w.applyGrantsModel p concrete = .ok (some delivered, w₀) := hmodel
  have hm₁ : Mirrored w.regions.length pm₁ q := hm.depart (leaving_of_grants hregions hgrants)
  have hi₁ : w₀.procs[p]? = some pm₁ := List.getElem?_set_self hp
  obtain ⟨m, hchan, hobj, hknown⟩ := channelCap_eq hi₁ hproc hm₁ (held_before hm _) hc
  have hentries : w.entries (.send p c grants) =
      [entry System.step w.system (.send m.cap pm.pid (toGrants concrete) 0)] := by
    rw [World.entries, World.calls, World.callsOf, hconcrete, ok_bind, hmodel, ok_bind]
    simp only [hchan, ok_bind, index_eq hi₁]
    rfl
  have hcheck : w.k.check m.cap .WRITE = .ok () := channel_check h.authority hknown hobj (by decide)
  have hobject : m.cap.object = objectAt c := by rw [CapModel.cap, hobj]; rfl
  have hlt : c < w.inFlight.length := by rwa [h.queues.length]
  obtain ⟨queue, hqueue⟩ := lookup hlt
  obtain ⟨ms, hqueued, hsent⟩ := h.queues.queued c queue hqueue
  rw [← hobject] at hqueued
  have hsend := ChannelRegistry.send_of_resolved 0 hcheck hqueued hbatch
  rw [← hgrants] at hsend
  let message : Message := ⟨0, batch.map deliver, sentAt⟩
  let w₁ : World := { w₀.setProcess pm.pid q with
    channels := ⟨w.channels.queues.insert m.cap.object (ms ++ [message])⟩
    k := moveObjects w.k batch }
  have hstep : w.system.step (.send m.cap pm.pid (toGrants concrete) 0) =
      (.ok (.stamp sentAt), w₁.system) := by
    simp only [System.step, System.withProcess, World.system, hproc, hsend, stopping]
    rfl
  rw [hentries]
  let w₂ : World := (w₁.logText ("send " ++ debug p ++ " " ++ debug c ++ " " ++ debug concrete ++
    " -> " ++ debug true)).outcome "send" true
  obtain ⟨lastEvent, preds, hrecord, hrecorded⟩ :=
    recordEvent_eq (w := w₂) h.chronicled hp h.procs sentAt []
  let sent : List MessageModel := queue ++ [⟨w.stamps.length, delivered⟩]
  have hmirrors := h.rewrite (.send m.cap pm.pid (toGrants concrete) 0) { w₁ with
      lastEvent, stamps := w.stamps ++ [sentAt], preds, inFlight := w.inFlight.set c sent }
    (congrArg Prod.snd hstep) (by rw [entry, hstep]; rfl) (List.length_set ..) hover.length
    hover.authority (h.storage.congr hover.contents) ?_ ?_ h.stashed ?_
  · refine ⟨_, ?_, hmirrors.relabel w₂.summary w₂.log⟩
    rw [World.executeSend, hconcrete, ok_bind, hmodel, ok_bind]
    have hsend₀ : w₀.channels.send w₀.k m.cap proc (toGrants concrete) 0 =
      (.ok sentAt, w₁.channels, w₁.k, q) := hsend
    simp only [hchan, ok_bind, index_eq hi₁, process_eq hi₁ hproc, hsend₀, returned]
    change (w₂.recordEvent p sentAt [] >>= fun r => index r.2.inFlight c >>= fun queue =>
      .ok { r.2 with inFlight := r.2.inFlight.set c (queue ++ [⟨r.1, delivered⟩]) } : Check World) = _
    rw [hrecord, ok_bind]
    have hqueue₂ : w₂.inFlight[c]? = some queue := hqueue
    simp only [index_eq hqueue₂, ok_bind]
    rfl
  · refine h.tables.set h.procs hi (p := q) hm₁ fun id => ?_
    rw [← hpid]
    exact process_setProcess w.sched pm.pid q id
  · have hlater : List.Forall₂ (Sent w.regions.length (w.stamps ++ [sentAt])) sent (ms ++ [message]) := by
      apply List.rel_append (hsent.imp fun mm m hm => hm.mono le_rfl _)
      exact .cons ⟨hover.delivers.symm, hover.known, List.getElem?_concat_length⟩ .nil
    have hqueues := (h.queues.mono le_rfl [sentAt]).set hc hlater
    rwa [← hobject] at hqueues
  · have hsends := h.chronicled.inFlight c _ hqueue
    have hledger : (causality tr).step
        (entry System.step w.system (.send m.cap pm.pid (toGrants concrete) 0)) =
        ((causality tr).record (pidAt p) sentAt []).setInFlight (objectAt c)
          (sent.map MessageModel.sendEvent) := by
      rw [entry, hstep]
      change ((causality tr).record pm.pid sentAt []).setInFlight m.cap.object
        ((causality tr).inFlight m.cap.object ++ [(causality tr).nodes.length]) = _
      rw [hobject, ← hsends, hpid, ← h.chronicled.length, List.map_append]
      rfl
    rw [hledger]
    exact hrecorded.setInFlight h.queues.length hc sent

theorem executeSend_mirrors (h : Mirrors tr w) (hp : p < w.procs.length) {c : ℕ}
    (hc : c < channelCount) (grants : List (ℕ × GrantKind)) :
    ∃ w', w.executeSend p c grants = .ok w' ∧ Mirrors (tr ++ w.entries (.send p c grants)) w' := by
  obtain ⟨pm, proc, hi, hpid, hproc, hm⟩ := h.process hp
  obtain ⟨concrete, hconcrete, hregions⟩ := concreteGrants_eq hi grants
  rcases applyGrantsModel_cases h.authority hi hm.toHeld hregions with
    ⟨e, he, hmodel⟩ | ⟨batch, delivered, regions, hbatch, hgrants, hmodel, hover, -⟩
  · exact send_refused h hc hconcrete hi hpid hproc hm he hmodel
  · exact send_accepted h hp hc hconcrete hi hpid hproc hm hregions hbatch hgrants hmodel hover

end Operations
end Muaddib.Chaos
