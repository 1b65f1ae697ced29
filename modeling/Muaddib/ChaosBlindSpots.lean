import Muaddib.ChaosExactness

/-! # What an audit can miss

The audit of a model that is in step with the kernel, after one part of the model was changed. -/
namespace Muaddib.Chaos
open Std (ExtTreeMap)
open LabelledRuns

namespace World

/-- Region `r` of the model is replaced. -/
def setRegion (w : World) (r : ℕ) (region : RegionModel) : World :=
  { w with regions := w.regions.set r region }

/-- One entry of the mirror of process `i` is replaced. -/
def setEntry (w : World) (i : ℕ) (pm : ProcModel) (h : Handle) (m : CapModel) : World :=
  { w with procs := w.procs.set i { pm with table := pm.table.insert h m } }

end World

section Regions
variable {w : World} {r : ℕ} {region : RegionModel}

theorem regions_setRegion (hr : w.regions[r]? = some region) (region' : RegionModel) (i : ℕ) :
    (w.setRegion r region').regions[i]? = if r = i then some region' else w.regions[i]? := by
  have hlt : r < w.regions.length := (List.getElem?_eq_some_iff.mp hr).1
  rw [World.setRegion, List.getElem?_set]
  simp only [hlt, if_true]

theorem objectId_setRegion (hr : w.regions[r]? = some region) (region' : RegionModel)
    (hobject : region'.object = region.object) (obj : Obj) : (w.setRegion r region').objectId obj = w.objectId obj := by
  cases obj with
  | channel c => rfl
  | region i =>
    rw [World.objectId, World.objectId, index, index, regions_setRegion hr]
    split
    · next heq =>
      subst heq
      rw [hr]
      exact congrArg Except.ok hobject
    · rfl

/-- Predictions about other objects do not look at region `r`. -/
theorem predictCheck_setRegion_of_ne (hr : w.regions[r]? = some region) (region' : RegionModel)
    (hobject : region'.object = region.object) {m : CapModel} (hm : m.obj ≠ .region r) (required : Rights) :
    (w.setRegion r region').predictCheck m required = w.predictCheck m required := by
  rw [World.predictCheck, World.predictCheck, objectId_setRegion hr region' hobject]
  cases hobj : m.obj with
  | channel c => rfl
  | region i =>
    have hne : r ≠ i := fun heq => hm (heq ▸ hobj)
    simp only [index, regions_setRegion hr, if_neg hne]

theorem predictCheck_setRegion (hr : w.regions[r]? = some region) (region' : RegionModel)
    (hobject : region'.object = region.object) (halive : region'.alive = region.alive)
    (hepoch : region.alive = true → region'.epoch = region.epoch) (m : CapModel) (required : Rights) :
    (w.setRegion r region').predictCheck m required = w.predictCheck m required := by
  by_cases hm : m.obj = .region r
  · have hr' : (w.setRegion r region').regions[r]? = some region' := by
      rw [regions_setRegion hr, if_pos rfl]
    simp only [World.predictCheck, objectId_setRegion hr region' hobject, hm, index_eq hr, index_eq hr', ok_bind, halive]
    cases hdead : region.alive with
    | false => rfl
    | true => rw [hepoch hdead]
  · exact predictCheck_setRegion_of_ne hr region' hobject hm required

theorem findAuditor_congr {w w' : World} {i : ℕ} {stash : List (Capability × CapModel)}
    (h : ∀ x ∈ stash, x.2.obj = .region i → w'.predictCheck x.2 .READ = w.predictCheck x.2 .READ) :
    w'.findAuditor i stash = w.findAuditor i stash := by
  induction stash with
  | nil => rfl
  | cons x stash ih =>
    obtain ⟨cap, m⟩ := x
    have hrest := ih fun y hy => h y (List.mem_cons_of_mem _ hy)
    rw [World.findAuditor, World.findAuditor, hrest]
    by_cases hobj : m.obj = .region i
    · rw [if_pos hobj, if_pos hobj, h (cap, m) List.mem_cons_self hobj]
    · rw [if_neg hobj, if_neg hobj]

/-- Tables of the model agree as before when objects keep their ids. -/
theorem tables_setRegion (h : Agrees w) (hr : w.regions[r]? = some region) (region' : RegionModel)
    (hobject : region'.object = region.object) : ∀ pm ∈ w.procs, ∃ p, w.sched.process pm.pid = some p ∧
      TableAgrees (w.setRegion r region') p pm.table := by
  intro pm hpm
  obtain ⟨p, hp, hagrees⟩ := h.tables pm hpm
  refine ⟨p, hp, hagrees.handles, fun a m hm => ?_⟩
  rw [objectId_setRegion hr region' hobject]
  exact hagrees.entries a m hm

/-- A replaced region passes when every prediction stays and its bytes are not looked at, or right. -/
theorem agrees_setRegion (h : Agrees w) (hr : w.regions[r]? = some region) (region' : RegionModel)
    (hobject : region'.object = region.object) (halive : region'.alive = region.alive)
    (hpredict : ∀ x ∈ w.stash, ∀ required,
      (w.setRegion r region').predictCheck x.2 required = w.predictCheck x.2 required)
    (hbytes : ∀ cap, w.auditor r = .ok (some cap) → w.mem.inspect w.k cap id = .ok region'.bytes) :
    Agrees (w.setRegion r region') := by
  have hauditor : ∀ i, (w.setRegion r region').auditor i = w.auditor i :=
    fun i => findAuditor_congr fun x hx _ => hpredict x hx .READ
  refine ⟨tables_setRegion h hr region' hobject, fun x hx => ?_, ?_, fun i region'' hi => ?_⟩
  · rw [hpredict x hx]
    exact h.liveness x hx
  · exact h.count.trans (alive_set hr region' halive).symm
  · rw [hauditor]
    rw [regions_setRegion hr] at hi
    split at hi
    · next heq =>
      subst heq
      obtain rfl := Option.some.inj hi
      obtain ⟨found, hfound, -⟩ := h.bytes r region hr
      exact ⟨found, hfound, fun cap hcap => hbytes cap (hcap ▸ hfound)⟩
    · exact h.bytes i region'' hi

/-- Other bytes for a region pass only when no capability ever seen can read the region. -/
theorem bytes_audit {tr : List SystemEntry} (h : Mirrors tr w) (hr : w.regions[r]? = some region)
    (bytes : Bytes) : (w.setRegion r { region with bytes }).sweep = .ok () ↔
      bytes = region.bytes ∨ ∀ x ∈ w.stash, w.reads r x = false := by
  have hbase : Agrees w := (sweep_ok_iff w).mp h.sweep_ok
  have hpredict : ∀ m required, (w.setRegion r { region with bytes }).predictCheck m required =
      w.predictCheck m required := fun m required =>
    predictCheck_setRegion hr { region with bytes } rfl rfl (fun _ => rfl) m required
  have hauditor : (w.setRegion r { region with bytes }).auditor r = w.auditor r :=
    findAuditor_congr fun x _ _ => hpredict x.2 .READ
  have hfound : w.auditor r = .ok ((w.stash.find? (w.reads r)).map Prod.fst) :=
    findAuditor_eq h.authority r h.stashed
  have hreal : ∀ cap, w.auditor r = .ok (some cap) → w.mem.inspect w.k cap id = .ok region.bytes := by
    obtain ⟨found, hsome, hbytes⟩ := hbase.bytes r region hr
    intro cap hcap
    exact hbytes cap (Except.ok.inj (hsome.symm.trans hcap))
  have hnone : w.stash.find? (w.reads r) = none ↔ ∀ x ∈ w.stash, w.reads r x = false := by simp
  rw [sweep_ok_iff, ← hnone]
  constructor
  · intro hagrees
    cases hfind : w.stash.find? (w.reads r) with
    | none => exact .inr rfl
    | some x =>
      rw [hfind] at hfound
      obtain ⟨found, hsome, hbytes⟩ :=
        hagrees.bytes r _ ((regions_setRegion hr _ r).trans (if_pos rfl))
      rw [hauditor, hfound] at hsome
      have hnew := hbytes x.1 (Except.ok.inj hsome).symm
      exact .inl (Except.ok.inj (hnew.symm.trans (hreal x.1 hfound)))
  · intro hcase
    apply agrees_setRegion hbase hr { region with bytes } rfl rfl fun x _ => hpredict x.2
    intro cap hcap
    rcases hcase with rfl | hnone
    · exact hreal cap hcap
    · rw [hnone] at hfound
      rw [hfound] at hcap
      cases hcap

/-- What the model predicts for a capability of a region that is alive. -/
theorem predictCheck_alive (hr : w.regions[r]? = some region) (halive : region.alive = true) {m : CapModel}
    (hm : m.obj = .region r) (required : Rights) : w.predictCheck m required = .ok
      (if region.epoch = m.epoch then
        if m.rights.contains required then .ok () else .error (.insufficientRights region.object m.rights required)
      else .error (.revoked region.object)) := by
  have hobject : w.objectId (.region r) = .ok region.object := by
    rw [World.objectId, index_eq hr]
    rfl
  simp only [World.predictCheck, hm, hobject, index_eq hr, ok_bind, halive]
  by_cases hepoch : region.epoch = m.epoch <;> simp [hepoch, pure, Except.pure]

/-- Another epoch for a region passes only when the region is dead, or when no capability ever seen has
the one epoch without the other. -/
theorem epoch_audit {tr : List SystemEntry} (h : Mirrors tr w) (hr : w.regions[r]? = some region)
    (epoch : UInt64) : (w.setRegion r { region with epoch }).sweep = .ok () ↔
      region.alive = false ∨ ∀ x ∈ w.stash, x.2.obj = .region r →
        (epoch = x.2.epoch ↔ region.epoch = x.2.epoch) := by
  have hbase : Agrees w := (sweep_ok_iff w).mp h.sweep_ok
  have hother : ∀ m required, m.obj ≠ .region r →
      (w.setRegion r { region with epoch }).predictCheck m required = w.predictCheck m required :=
    fun m required hm => predictCheck_setRegion_of_ne hr { region with epoch } rfl hm required
  have hr' : (w.setRegion r { region with epoch }).regions[r]? = some { region with epoch } := by
    rw [regions_setRegion hr, if_pos rfl]
  have hreal : ∀ cap, w.auditor r = .ok (some cap) → w.mem.inspect w.k cap id = .ok region.bytes := by
    obtain ⟨found, hsome, hbytes⟩ := hbase.bytes r region hr
    intro cap hcap
    exact hbytes cap (Except.ok.inj (hsome.symm.trans hcap))
  rw [sweep_ok_iff]
  by_cases halive : region.alive = true
  · have hold := fun m => predictCheck_alive (m := m) hr halive
    have hnew := fun m => predictCheck_alive (m := m) hr' halive
    constructor
    · intro hagrees
      refine .inr fun x hx hobj => ?_
      have hsame := (hagrees.liveness x hx).trans (hbase.liveness x hx).symm
      rw [hold x.2 hobj, hnew x.2 hobj, Except.ok.injEq, Rights.contains_NONE, if_pos rfl] at hsame
      constructor
      · intro hepoch
        rw [if_pos hepoch] at hsame
        by_contra hne
        rw [if_neg hne] at hsame
        cases hsame
      · intro hepoch
        rw [if_pos hepoch] at hsame
        by_contra hne
        rw [if_neg hne] at hsame
        cases hsame
    · intro hcase
      have hsame := hcase.resolve_left (by rw [halive]; exact Bool.noConfusion)
      apply agrees_setRegion hbase hr { region with epoch } rfl rfl _ hreal
      intro x hx required
      by_cases hobj : x.2.obj = .region r
      · rw [hold x.2 hobj, hnew x.2 hobj]
        simp only [hsame x hx hobj]
      · exact hother x.2 required hobj
  · have hpasses : Agrees (w.setRegion r { region with epoch }) := by
      apply agrees_setRegion hbase hr { region with epoch } rfl rfl _ hreal
      intro x _ required
      exact predictCheck_setRegion hr { region with epoch } rfl rfl (absurd · halive) x.2 required
    exact ⟨fun _ => .inl (Bool.eq_false_of_not_eq_true halive), fun _ => hpasses⟩

theorem alive_audit {tr : List SystemEntry} (h : Mirrors tr w) (hr : w.regions[r]? = some region) :
    (w.setRegion r { region with alive := !region.alive }).sweep ≠ .ok () := by
  have hlt : r < w.regions.length := (List.getElem?_eq_some_iff.mp hr).1
  have hget : w.regions[r] = region := (List.getElem?_eq_some_iff.mp hr).2
  rw [ne_eq, sweep_ok_iff]
  intro hagrees
  have hcount := h.storage.count.symm.trans hagrees.count
  rw [World.setRegion, ← List.countP_eq_length_filter, ← List.countP_eq_length_filter,
    List.countP_set hlt, hget] at hcount
  cases halive : region.alive with
  | true =>
    have hpos : 0 < w.regions.countP fun region => region.alive :=
      List.countP_pos_iff.mpr ⟨region, List.mem_of_getElem? hr, halive⟩
    simp only [halive, Bool.not_true] at hcount
    simp at hcount
    omega
  | false => simp [halive] at hcount

end Regions

section Entries
variable {tr : List SystemEntry} {w : World} {i : ℕ} {pm : ProcModel} {a : Handle} {m m' : CapModel}

theorem objectId_inj (h : Authority w.k w.channelObjects w.regions) (hm : m.Known w.regions.length)
    {obj : Obj} (hobject : w.objectId obj = .ok m.cap.object) : obj = m.obj := by
  have hfew := h.few
  have hslot : m.obj.slot < 2 ^ 64 := by
    cases hobj : m.obj with
    | region r =>
      have hr := hm.region r hobj
      simp only [Obj.slot]
      omega
    | channel c =>
      have hc := (hm.channel c hobj).1
      simp only [Obj.slot, channelCount] at hc ⊢
      omega
  have hcases : ∀ k, k < 2 ^ 64 → objectAt k = m.cap.object → k = m.obj.slot :=
    fun k hk heq => (objectAt_inj hk hslot).mp heq
  cases obj with
  | region r =>
    obtain ⟨region, hr, hpure⟩ := ok_of_bind hobject
    rw [index_ok_iff] at hr
    have hlt := (List.getElem?_eq_some_iff.mp hr).1
    have hsame := hcases (channelCount + r) (by omega) ((h.region r region hr).1.symm.trans (Except.ok.inj hpure))
    cases hobj : m.obj with
    | region r' =>
      rw [hobj, Obj.slot] at hsame
      rw [Nat.add_left_cancel hsame]
    | channel c =>
      have hc := (hm.channel c hobj).1
      rw [hobj, Obj.slot] at hsame
      omega
  | channel c =>
    rw [World.objectId, index_ok_iff, h.objects, List.getElem?_map, Option.map_eq_some_iff] at hobject
    obtain ⟨c', hc', heq⟩ := hobject
    obtain ⟨hlt, rfl⟩ := List.getElem?_eq_some_iff.mp hc'
    rw [List.length_range] at hlt
    rw [List.getElem_range] at heq
    have hsame := hcases c (by rw [channelCount] at hlt; omega) heq
    cases hobj : m.obj with
    | region r =>
      rw [hobj, Obj.slot] at hsame
      omega
    | channel c' =>
      rw [hobj, Obj.slot] at hsame
      rw [hsame]

/-- Another entry in a mirrored table passes exactly when object and rights are those of the old one:
the audit does not look at the epoch of an entry. -/
theorem entry_audit (h : Mirrors tr w) (hi : w.procs[i]? = some pm) (hm : pm.table[a]? = some m) :
    (w.setEntry i pm a m').sweep = .ok () ↔ m'.obj = m.obj ∧ m'.rights = m.rights := by
  have hbase : Agrees w := (sweep_ok_iff w).mp h.sweep_ok
  obtain ⟨hpid, p, hp, hmirror⟩ := h.tables i pm hi
  have hcap : p.capability a = some m.cap := by
    rw [hmirror.toHeld.capability, hm]
    rfl
  have hlt : i < w.procs.length := (List.getElem?_eq_some_iff.mp hi).1
  have hinsert : ∀ b : Handle, (pm.table.insert a m')[b]? = if a = b then some m' else pm.table[b]? :=
    fun b => FiniteMaps.getElem?_insert pm.table a b m'
  rw [sweep_ok_iff]
  constructor
  · intro hagrees
    obtain ⟨q, hq, htable⟩ := hagrees.tables _ (List.mem_of_getElem? (List.getElem?_set_self hlt))
    obtain rfl : p = q := Option.some.inj (hp.symm.trans (hpid ▸ hq))
    obtain ⟨cap, hcap', hobject, hrights⟩ := htable.entries a m' ((hinsert a).trans (if_pos rfl))
    obtain rfl := Option.some.inj (hcap.symm.trans hcap')
    exact ⟨objectId_inj h.authority (hmirror.known a m hm) hobject, hrights.symm⟩
  · rintro ⟨hobj, hrights⟩
    have hobjectId : ∀ obj, (w.setEntry i pm a m').objectId obj = w.objectId obj := by
      intro obj
      cases obj <;> rfl
    have hauditor : ∀ r, (w.setEntry i pm a m').auditor r = w.auditor r :=
      fun r => findAuditor_congr fun x _ _ => rfl
    refine ⟨fun pm' hpm' => ?_, hbase.liveness, hbase.count, fun r region hr => ?_⟩
    · rcases List.mem_or_eq_of_mem_set hpm' with hpm' | rfl
      · obtain ⟨q, hq, hhandles, hentries⟩ := hbase.tables pm' hpm'
        refine ⟨q, hq, hhandles, fun b m'' hb => ?_⟩
        rw [hobjectId]
        exact hentries b m'' hb
      · obtain ⟨q, hq, hhandles, hentries⟩ := hbase.tables pm (List.mem_of_getElem? hi)
        refine ⟨q, hq, fun b => ?_, fun b m'' hb => ?_⟩
        · rw [hhandles b, ExtTreeMap.mem_insert, Std.LawfulEqCmp.compare_eq_iff_eq, iff_or_self]
          rintro rfl
          exact ExtTreeMap.mem_iff_isSome_getElem?.mpr (hm ▸ rfl)
        · rw [hobjectId]
          change (pm.table.insert a m')[b]? = some m'' at hb
          rw [hinsert] at hb
          split at hb
          · next heq =>
            subst heq
            obtain rfl := Option.some.inj hb
            obtain ⟨cap, hcap', hobject, hrights'⟩ := hentries a m hm
            exact ⟨cap, hcap', hobj ▸ hobject, hrights'.trans hrights.symm⟩
          · exact hentries b m'' hb
    · rw [hauditor]
      exact hbase.bytes r region hr

end Entries

/-- What the audit of a run can miss: bytes that no capability ever seen can read, epochs that no such
capability has, and the epochs of table entries. -/
theorem sweep_misses (ops : List Op) (hrange : AllInRange ops World.boot) (hsparing : Sparing (runTrace ops))
    {w : World} (haudited : audited ops World.boot = .ok w) :
    (∀ r region bytes, w.regions[r]? = some region →
      ((w.setRegion r { region with bytes }).sweep = .ok () ↔
        bytes = region.bytes ∨ ∀ x ∈ w.stash, w.reads r x = false)) ∧
    (∀ r region epoch, w.regions[r]? = some region →
      ((w.setRegion r { region with epoch }).sweep = .ok () ↔ region.alive = false ∨
        ∀ x ∈ w.stash, x.2.obj = .region r → (epoch = x.2.epoch ↔ region.epoch = x.2.epoch))) ∧
    (∀ r region, w.regions[r]? = some region →
      (w.setRegion r { region with alive := !region.alive }).sweep ≠ .ok ()) ∧
    ∀ i pm a m m', w.procs[i]? = some pm → pm.table[a]? = some m →
      ((w.setEntry i pm a m').sweep = .ok () ↔ m'.obj = m.obj ∧ m'.rights = m.rights) := by
  obtain ⟨w', haudited', hmirrors⟩ := audited_mirrors boot_mirrors hrange hsparing
  obtain rfl := Except.ok.inj (haudited.symm.trans haudited')
  exact ⟨fun r region bytes hr => bytes_audit hmirrors hr bytes,
    fun r region epoch hr => epoch_audit hmirrors hr epoch, fun r region hr => alive_audit hmirrors hr,
    fun i pm a m m' hi hm => entry_audit hmirrors hi hm⟩

theorem sweep_misses_movedRegion : ∃ w, audited movedRegion World.boot = .ok w ∧
    (∀ r region bytes, w.regions[r]? = some region →
      ((w.setRegion r { region with bytes }).sweep = .ok () ↔
        bytes = region.bytes ∨ ∀ x ∈ w.stash, w.reads r x = false)) ∧
    (∀ r region epoch, w.regions[r]? = some region →
      ((w.setRegion r { region with epoch }).sweep = .ok () ↔ region.alive = false ∨
        ∀ x ∈ w.stash, x.2.obj = .region r → (epoch = x.2.epoch ↔ region.epoch = x.2.epoch))) ∧
    (∀ r region, w.regions[r]? = some region →
      (w.setRegion r { region with alive := !region.alive }).sweep ≠ .ok ()) ∧
    ∀ i pm a m m', w.procs[i]? = some pm → pm.table[a]? = some m →
      ((w.setEntry i pm a m').sweep = .ok () ↔ m'.obj = m.obj ∧ m'.rights = m.rights) := by
  obtain ⟨w, haudited⟩ := movedRegion_passes
  exact ⟨w, haudited, sweep_misses movedRegion movedRegion_inRange movedRegion_sparing haudited⟩

end Muaddib.Chaos
