import Muaddib.ChaosMirrors

/-! # Tables and their mirrors

What a grant, a batch that leaves and a delivery do to a table of models. -/
namespace Muaddib.Chaos
open Std (ExtTreeMap)

theorem Obj.slot_inj {o o' : Obj} (ho : ∀ c, o = .channel c → c < channelCount)
    (ho' : ∀ c, o' = .channel c → c < channelCount) (h : o.slot = o'.slot) : o = o' := by
  cases o with
  | region r =>
    cases o' with
    | region r' =>
      rw [slot, slot, Nat.add_left_cancel_iff] at h
      rw [h]
    | channel c =>
      have hc := ho' c rfl
      rw [slot, slot] at h
      omega
  | channel c =>
    have hc := ho c rfl
    cases o' with
    | region r =>
      rw [slot, slot] at h
      omega
    | channel c' => exact congrArg Obj.channel h

namespace CapModel.Known
variable {n : ℕ} {m m' : CapModel}

theorem slot_lt (h : m.Known n) (hn : channelCount + n < 2 ^ 64) : m.obj.slot < 2 ^ 64 := by
  cases hobj : m.obj with
  | region r =>
    have hr := h.region r hobj
    rw [Obj.slot]
    omega
  | channel c =>
    have hc := (h.channel c hobj).1
    rw [Obj.slot]
    omega

theorem object_eq_iff (h : m.Known n) (h' : m'.Known n) (hn : channelCount + n < 2 ^ 64) :
    m.cap.object = m'.cap.object ↔ m.obj = m'.obj := by
  constructor
  · intro heq
    apply Obj.slot_inj (fun c hc => (h.channel c hc).1) fun c hc => (h'.channel c hc).1
    exact (objectAt_inj (h.slot_lt hn) (h'.slot_lt hn)).mp heq
  · intro heq
    rw [CapModel.cap, CapModel.cap, heq]

/-- A model whose capability is for a channel is a model of that channel. -/
theorem obj_of_channel (h : m.Known n) (hn : channelCount + n < 2 ^ 64) {c : ℕ}
    (hc : c < channelCount) (hobject : m.cap.object = objectAt c) : m.obj = .channel c := by
  apply Obj.slot_inj (fun c hc => (h.channel c hc).1)
  · rintro c' ⟨⟩
    exact hc
  · have hslot : c < 2 ^ 64 := by omega
    exact (objectAt_inj (h.slot_lt hn) hslot).mp hobject

end CapModel.Known

def insertAll (table : ExtTreeMap Handle CapModel) (entries : List (Handle × CapModel)) :
    ExtTreeMap Handle CapModel := entries.foldl (fun t x => t.insert x.1 x.2) table

def eraseAll (table : ExtTreeMap Handle CapModel) (handles : List Handle) :
    ExtTreeMap Handle CapModel := handles.foldl (fun t h => t.erase h) table

theorem getElem?_eraseAll (table : ExtTreeMap Handle CapModel) (handles : List Handle) (a : Handle) :
    (eraseAll table handles)[a]? = if a ∈ handles then none else table[a]? := by
  induction handles generalizing table with
  | nil => rfl
  | cons h handles ih =>
    change (eraseAll (table.erase h) handles)[a]? = _
    rw [ih, FiniteMaps.getElem?_erase]
    by_cases ha : h = a
    · simp [ha]
    · simp [ha, Ne.symm ha]

namespace Held
variable {n : ℕ} {table : ExtTreeMap Handle CapModel} {p : Process} {m : CapModel}

theorem grant (h : Held n table p) (hm : m.Known n) :
    Held n (table.insert ⟨p.nextHandle⟩ m) (p.grant m.cap).2 := by
  refine ⟨?_, fun a m' ha => ?_⟩
  · rw [FiniteMaps.map_insert, ← h.holds]
    rfl
  · rw [FiniteMaps.getElem?_insert] at ha
    split at ha
    · exact Option.some.inj ha ▸ hm
    · exact h.known a m' ha

theorem grantAll (h : Held n table p) {models : List CapModel} (hm : ∀ m ∈ models, m.Known n) :
    Held n (insertAll table ((p.grantAll (models.map CapModel.cap)).1.zip models))
      (p.grantAll (models.map CapModel.cap)).2 := by
  induction models generalizing table p with
  | nil => exact h
  | cons m models ih =>
    have hfirst := h.grant (hm m List.mem_cons_self)
    exact ih hfirst fun m' hm' => hm m' (List.mem_cons_of_mem _ hm')

theorem takeAll (h : Held n table p) (handles : List Handle) :
    Held n (eraseAll table handles) (p.takeAll handles) := by
  refine ⟨?_, fun a m ha => ?_⟩
  · apply ExtTreeMap.ext_getElem?
    intro a
    change (p.takeAll handles).capability a = _
    rw [Process.capability_takeAll, h.capability, ExtTreeMap.getElem?_map, getElem?_eraseAll]
    split <;> rfl
  · rw [getElem?_eraseAll] at ha
    split at ha
    · cases ha
    · exact h.known a m ha

theorem frame {p' : Process} (h : Held n table p) (hsame : p'.capabilities = p.capabilities) :
    Held n table p' := ⟨hsame.trans h.holds, h.known⟩

theorem channel_of (h : Held n table p) (hn : channelCount + n < 2 ^ 64) {a : Handle} {c : ℕ}
    {cap : Capability} (ha : p.capability a = some cap) (hc : c < channelCount)
    (hobject : cap.object = objectAt c) : ∃ m, table[a]? = some m ∧ m.obj = .channel c := by
  rw [h.capability, Option.map_eq_some_iff] at ha
  obtain ⟨m, hget, rfl⟩ := ha
  exact ⟨m, hget, (h.known a m hget).obj_of_channel hn hc hobject⟩

end Held

namespace Mirrored
variable {n : ℕ} {pm : ProcModel} {p : Process}

/-- Deliveries to a table that never reuses a handle leave the channels in it. -/
theorem deliver (h : Mirrored n pm p) (hn : channelCount + n < 2 ^ 64) {k : ℕ} (hp : p.Upto k)
    {models : List CapModel} (hk : k + models.length ≤ 2 ^ 32) (hm : ∀ m ∈ models, m.Known n) :
    Mirrored n
      { pm with table := insertAll pm.table ((p.grantAll (models.map CapModel.cap)).1.zip models) }
      (p.grantAll (models.map CapModel.cap)).2 := by
  have hheld := h.toHeld.grantAll hm
  have hkeep := (hp.grantAll (models.map CapModel.cap) (by rwa [List.length_map])).2.2.1
  refine ⟨hheld, fun c hc => ?_⟩
  obtain ⟨a, m, hget, hobj⟩ := h.channel c hc
  have hcap : p.capability a = some m.cap := by rw [h.toHeld.capability, hget, Option.map_some]
  have hobject : m.cap.object = objectAt c := by rw [CapModel.cap, hobj]; rfl
  exact ⟨a, hheld.channel_of hn (hkeep a m.cap hcap) hc hobject⟩

theorem depart (h : Mirrored n pm p) {batch : List (Grant × Capability)}
    (hregions : ∀ a ∈ leavingHandles batch, ∃ m, pm.table[a]? = some m ∧ m.obj.isRegion = true) :
    Mirrored n { pm with table := eraseAll pm.table (leavingHandles batch) } (p.depart batch) := by
  refine ⟨(h.toHeld.takeAll (leavingHandles batch)).frame rfl, fun c hc => ?_⟩
  obtain ⟨a, m, hget, hobj⟩ := h.channel c hc
  refine ⟨a, m, ?_, hobj⟩
  rw [getElem?_eraseAll, if_neg, hget]
  intro ha
  obtain ⟨m', hget', hregion⟩ := hregions a ha
  obtain rfl := Option.some.inj (hget.symm.trans hget')
  rw [hobj] at hregion
  cases hregion

theorem frame {p' : Process} (h : Mirrored n pm p) (hsame : p'.capabilities = p.capabilities) :
    Mirrored n pm p' := ⟨h.toHeld.frame hsame, h.channel⟩

theorem mono {n' : ℕ} (h : Mirrored n pm p) (hle : n ≤ n') : Mirrored n' pm p :=
  ⟨h.toHeld.mono hle, h.channel⟩

end Mirrored

namespace Tables
variable {n : ℕ} {sched sched' : Scheduler} {procs : List ProcModel}

theorem mono {n' : ℕ} (h : Tables n sched procs) (hle : n ≤ n') : Tables n' sched procs := by
  intro i pm hi
  obtain ⟨hpid, p, hp, hm⟩ := h i pm hi
  exact ⟨hpid, p, hp, hm.mono hle⟩

theorem set (h : Tables n sched procs) (hprocs : procs.length ≤ maxProcesses) {i : ℕ}
    {pm : ProcModel} {p : Process} {table : ExtTreeMap Handle CapModel} (hi : procs[i]? = some pm)
    (hm : Mirrored n { pm with table } p)
    (hprocess : ∀ id, sched'.process id = if pidAt i = id then some p else sched.process id) :
    Tables n sched' (procs.set i { pm with table }) := by
  intro j pm₁ hj
  have hlt : i < procs.length := (List.getElem?_eq_some_iff.mp hi).1
  rw [List.getElem?_set, if_pos hlt] at hj
  split at hj
  · next heq =>
    subst heq
    obtain rfl := Option.some.inj hj
    refine ⟨(h i pm hi).1, p, ?_, hm⟩
    rw [hprocess, if_pos rfl]
  · next hne =>
    obtain ⟨hpid', q, hq, hm'⟩ := h j pm₁ hj
    have hj' : j < procs.length := (List.getElem?_eq_some_iff.mp hj).1
    have hids : pidAt i ≠ pidAt j := by
      rw [Ne, pidAt_inj (by rw [maxProcesses] at hprocs; omega) (by rw [maxProcesses] at hprocs; omega)]
      exact hne
    refine ⟨hpid', q, ?_, hm'⟩
    rw [hprocess, if_neg hids, hq]

theorem snoc (h : Tables n sched procs) (hprocs : procs.length < maxProcesses) {pm : ProcModel}
    {p : Process} (hpid : pm.pid = pidAt procs.length) (hm : Mirrored n pm p)
    (hprocess : ∀ id, sched'.process id =
      if pidAt procs.length = id then some p else sched.process id) :
    Tables n sched' (procs ++ [pm]) := by
  intro j pm₁ hj
  rcases Nat.lt_trichotomy j procs.length with hlt | rfl | hgt
  · rw [List.getElem?_append_left hlt] at hj
    obtain ⟨hpid', q, hq, hm'⟩ := h j pm₁ hj
    have hids : pidAt procs.length ≠ pidAt j := by
      rw [Ne, pidAt_inj (by rw [maxProcesses] at hprocs; omega) (by rw [maxProcesses] at hprocs; omega)]
      omega
    refine ⟨hpid', q, ?_, hm'⟩
    rw [hprocess, if_neg hids, hq]
  · rw [List.getElem?_concat_length] at hj
    obtain rfl := Option.some.inj hj
    refine ⟨hpid, p, ?_, hm⟩
    rw [hprocess, if_pos rfl]
  · rw [List.getElem?_eq_none (by rw [List.length_append, List.length_singleton]; omega)] at hj
    cases hj

end Tables

section Lookups
variable {w : World} {i : ℕ} {pm : ProcModel} {p : Process}

theorem process_eq (hi : w.procs[i]? = some pm) (hp : w.sched.process pm.pid = some p) :
    w.process i = .ok p := by
  rw [World.process, index_eq hi, ok_bind, hp]
  rfl

theorem mirrorAll_eq {entries : List (Handle × CapModel)} (hi : w.procs[i]? = some pm)
    (hp : w.sched.process pm.pid = some p)
    (hentries : ∀ x ∈ entries, p.capability x.1 = some x.2.cap) :
    World.mirrorAll i pm.pid entries w = .ok { w with
      procs := w.procs.set i { pm with table := insertAll pm.table entries }
      stash := w.stash ++ entries.map fun x => (x.2.cap, x.2) } := by
  induction entries generalizing w pm with
  | nil =>
    have hself : w.procs.set i { pm with table := insertAll pm.table [] } = w.procs := set_self hi
    rw [World.mirrorAll, hself, List.map_nil, List.append_nil]
  | cons x entries ih =>
    obtain ⟨a, m⟩ := x
    have hcap := hentries _ List.mem_cons_self
    have hlt : i < w.procs.length := (List.getElem?_eq_some_iff.mp hi).1
    have hnext : (w.procs.set i { pm with table := pm.table.insert a m })[i]? =
        some { pm with table := pm.table.insert a m } := List.getElem?_set_self hlt
    have hrest := ih (w := { w with
        procs := w.procs.set i { pm with table := pm.table.insert a m }
        stash := w.stash ++ [(m.cap, m)] }) hnext hp
      fun y hy => hentries y (List.mem_cons_of_mem _ hy)
    have hone : w.mirror i pm.pid a m = .ok { w with
        procs := w.procs.set i { pm with table := pm.table.insert a m }
        stash := w.stash ++ [(m.cap, m)] } := by
      rw [World.mirror, hp, expect_some, ok_bind, hcap, expect_some, ok_bind, index_eq hi, ok_bind]
      rfl
    rw [World.mirrorAll, hone, ok_bind]
    refine hrest.trans ?_
    rw [List.set_set, List.append_assoc]
    rfl

theorem channelHandle_eq {n : ℕ} (hi : w.procs[i]? = some pm) (hm : Mirrored n pm p) {c : ℕ}
    (hc : c < channelCount) (message : String) : ∃ a m, w.channelHandle i c message = .ok a ∧
      pm.table[a]? = some m ∧ m.obj = .channel c := by
  obtain ⟨a, m, hget, hobj⟩ := hm.channel c hc
  have hsome : (pm.table.toList.find? fun x => x.2.obj == .channel c).isSome = true := by
    rw [List.find?_isSome]
    refine ⟨(a, m), ExtTreeMap.mem_toList_iff_getElem?_eq_some.mpr hget, ?_⟩
    rw [hobj]
    exact beq_self_eq_true _
  obtain ⟨x, hx⟩ := Option.isSome_iff_exists.mp hsome
  refine ⟨x.1, x.2, ?_, ?_, ?_⟩
  · rw [World.channelHandle, index_eq hi, ok_bind, hx]
    rfl
  · exact ExtTreeMap.mem_toList_iff_getElem?_eq_some.mp (List.mem_of_find?_eq_some hx)
  · have hfound := List.find?_some hx
    exact eq_of_beq hfound

/-- A channel stays at hand while a batch leaves: what the mirror `pm` still has, `p` still holds. -/
theorem channelCap_eq {n : ℕ} {q : Process} (hi : w.procs[i]? = some pm)
    (hp : w.sched.process pm.pid = some p) (hm : Mirrored n pm q)
    (hsub : ∀ (a : Handle) (m : CapModel), pm.table[a]? = some m → p.capability a = some m.cap) {c : ℕ}
    (hc : c < channelCount) :
    ∃ m : CapModel, w.channelCap i c = .ok m.cap ∧ m.obj = .channel c ∧ m.Known n := by
  obtain ⟨a, m, hhandle, hget, hobj⟩ :=
    channelHandle_eq hi hm hc "every process holds every channel"
  refine ⟨m, ?_, hobj, hm.known a m hget⟩
  rw [World.channelCap, hhandle, ok_bind, process_eq hi hp, ok_bind, hsub a m hget]
  rfl

theorem channelGrants_eq {n : ℕ} {q : Process} (hi : w.procs[i]? = some pm) (hm : Mirrored n pm q)
    (hsub : ∀ (a : Handle) (m : CapModel), pm.table[a]? = some m → p.capability a = some m.cap)
    {k : Kernel} (hk : ∀ c, c < channelCount → k.epochs[objectAt c]? = some 0) :
    ∃ batch : List (Grant × Capability), w.channelGrants i = .ok (batch.map Prod.fst) ∧
      batch.map Prod.snd = (List.range channelCount).map (fun c =>
        (CapModel.mk (.channel c) World.channelRights 0).cap) ∧
      ∀ x ∈ batch, resolveGrant k p x.1 = .ok x.2 ∧ x.1.leaving = none ∧ x.1.isMove = false ∧
        ∃ c, c < channelCount ∧ x.2.object = objectAt c := by
  have hall : ∀ cs : List ℕ, (∀ c ∈ cs, c < channelCount) →
      ∃ batch : List (Grant × Capability), (cs.mapM fun c => do
          let h ← w.channelHandle i c "channels"
          return Grant.derive h World.channelRights) = .ok (batch.map Prod.fst) ∧
        batch.map Prod.snd = cs.map (fun c => (CapModel.mk (.channel c) World.channelRights 0).cap) ∧
        ∀ x ∈ batch, resolveGrant k p x.1 = .ok x.2 ∧ x.1.leaving = none ∧ x.1.isMove = false ∧
          ∃ c, c < channelCount ∧ x.2.object = objectAt c := by
    intro cs hcs
    induction cs with
    | nil => exact ⟨[], rfl, rfl, fun x hx => by cases hx⟩
    | cons c cs ih =>
      have hc := hcs c List.mem_cons_self
      obtain ⟨batch, hgrants, hcaps, hgood⟩ := ih fun c' hc' => hcs c' (List.mem_cons_of_mem _ hc')
      obtain ⟨a, m, hhandle, hget, hobj⟩ := channelHandle_eq hi hm hc "channels"
      obtain ⟨-, hepoch, hrights⟩ := (hm.known a m hget).channel c hobj
      refine ⟨(.derive a World.channelRights, (CapModel.mk (.channel c) World.channelRights 0).cap) ::
        batch, ?_, ?_, fun x hx => ?_⟩
      · rw [List.mapM_cons, hhandle, ok_bind, hgrants]
        rfl
      · exact congrArg (_ :: ·) hcaps
      · rcases List.mem_cons.mp hx with rfl | hx
        · refine ⟨resolveGrant_derive_iff.mpr ⟨m.cap, hsub a m hget, ?_⟩, rfl, rfl, c, hc, rfl⟩
          refine Kernel.derive_eq_ok_iff.mpr ⟨?_, ?_, hrights, ?_⟩
          · rw [Kernel.Live, CapModel.cap, hobj, hepoch]
            exact hk c hc
          · exact Rights.contains_trans hrights (by decide)
          · rw [CapModel.cap, CapModel.cap, hobj, hepoch]
        · exact hgood x hx
  exact hall _ fun c hc => List.mem_range.mp hc

theorem concreteGrants_eq (hi : w.procs[i]? = some pm) (grants : List (ℕ × GrantKind)) :
    ∃ concrete, w.concreteGrants i grants = .ok concrete ∧
      ∀ x ∈ concrete, ∃ m, pm.table[x.1]? = some m ∧ m.obj.isRegion = true := by
  let handles := (pm.table.toList.filter fun x => x.2.obj.isRegion).map Prod.fst
  have hmem : ∀ a ∈ handles, ∃ m, pm.table[a]? = some m ∧ m.obj.isRegion = true := by
    intro a ha
    obtain ⟨⟨a, m⟩, hx, rfl⟩ := List.mem_map.mp ha
    obtain ⟨hx, hregion⟩ := List.mem_filter.mp hx
    exact ⟨m, ExtTreeMap.mem_toList_iff_getElem?_eq_some.mp hx, hregion⟩
  have hunfold : w.concreteGrants i grants = if handles.isEmpty then .ok [] else
      grants.mapM fun x => do
        let h ← index handles (x.1 % handles.length)
        return (h, x.2) := by
    rw [World.concreteGrants, index_eq hi, ok_bind]
    rfl
  rw [hunfold]
  clear hunfold
  by_cases hempty : handles.isEmpty = true
  · rw [if_pos hempty]
    exact ⟨[], rfl, fun x hx => by cases hx⟩
  · rw [if_neg hempty]
    have hpos : 0 < handles.length := by
      rw [List.isEmpty_iff] at hempty
      exact List.length_pos_iff.mpr hempty
    induction grants with
    | nil => exact ⟨[], rfl, fun x hx => by cases hx⟩
    | cons g grants ih =>
      obtain ⟨rest, hrest, hall⟩ := ih
      obtain ⟨a, ha⟩ := lookup (Nat.mod_lt g.1 hpos)
      refine ⟨(a, g.2) :: rest, ?_, fun x hx => ?_⟩
      · rw [List.mapM_cons, index_eq ha, hrest]
        rfl
      · rcases List.mem_cons.mp hx with rfl | hx
        · exact hmem a (List.mem_of_getElem? ha)
        · exact hall x hx

theorem pickCap_eq {n : ℕ} (hi : w.procs[i]? = some pm) (hp : w.sched.process pm.pid = some p)
    (hm : Mirrored n pm p) (hstash : Stashed n w.stash) (pick : Pick) (wantRegion : Bool) :
    w.pickCap i pick wantRegion = .ok none ∨
      ∃ m stale, w.pickCap i pick wantRegion = .ok (some (m.cap, m, stale)) ∧ m.Known n ∧
        (wantRegion = true → m.obj.isRegion = true) := by
  have hregion : ∀ o : Obj, (!wantRegion || o.isRegion) = true → wantRegion = true →
      o.isRegion = true := by
    intro o ho hwant
    rw [hwant] at ho
    exact ho
  cases pick with
  | table k =>
    simp only [World.pickCap, index_eq hi, ok_bind]
    generalize hcandidates : (pm.table.toList.filter fun x => !wantRegion || x.2.obj.isRegion) =
      candidates
    cases hget : candidates[k % candidates.length]? with
    | none => exact Or.inl rfl
    | some x =>
      obtain ⟨a, m⟩ := x
      rw [← hcandidates] at hget
      obtain ⟨hx, hwant⟩ := List.mem_filter.mp (List.mem_of_getElem? hget)
      have ha := ExtTreeMap.mem_toList_iff_getElem?_eq_some.mp hx
      refine Or.inr ⟨m, false, ?_, hm.known a m ha, hregion m.obj hwant⟩
      simp only [hp, expect_some, ok_bind, hm.toHeld.capability, ha, Option.map_some]
      rfl
  | stash k =>
    simp only [World.pickCap]
    generalize hcandidates : (w.stash.filter fun x => !wantRegion || x.2.obj.isRegion) = candidates
    cases hget : candidates[k % candidates.length]? with
    | none => exact Or.inl rfl
    | some x =>
      obtain ⟨cap, m⟩ := x
      rw [← hcandidates] at hget
      obtain ⟨hx, hwant⟩ := List.mem_filter.mp (List.mem_of_getElem? hget)
      obtain ⟨hcap, hknown⟩ := hstash _ hx
      refine Or.inr ⟨m, true, ?_, hknown, hregion m.obj hwant⟩
      rw [← hcap]
      rfl

end Lookups
end Muaddib.Chaos
