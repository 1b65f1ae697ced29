import Muaddib.ChaosMirrors

/-! # A model in step passes its audit -/
namespace Muaddib.Chaos

section Sweeps
variable {w : World}

theorem sweepTable_ok (h : Authority w.k w.channelObjects w.regions) (i : ℕ) {p : Process}
    {entries : List (Handle × CapModel)} (hentries : ∀ x ∈ entries,
      p.capability x.1 = some x.2.cap ∧ x.2.Known w.regions.length) :
    w.sweepTable i p entries = .ok () := by
  induction entries with
  | nil => rfl
  | cons x entries ih =>
    obtain ⟨a, m⟩ := x
    obtain ⟨hcap, hknown⟩ := hentries _ List.mem_cons_self
    have hrest := ih fun y hy => hentries y (List.mem_cons_of_mem _ hy)
    rw [World.sweepTable, hcap, expect_some, ok_bind, objectId_eq h hknown, ok_bind, ensure_true, ok_bind]
    · exact hrest
    · simp [CapModel.cap]

theorem sweepProcs_ok (h : Authority w.k w.channelObjects w.regions) (i : ℕ) {procs : List ProcModel}
    (hprocs : ∀ pm ∈ procs, ∃ p, w.sched.process pm.pid = some p ∧ Mirrored w.regions.length pm p) :
    w.sweepProcs i procs = .ok () := by
  induction procs generalizing i with
  | nil => rfl
  | cons pm procs ih =>
    obtain ⟨p, hp, hmirror⟩ := hprocs _ List.mem_cons_self
    have hrest := ih (i + 1) fun pm hpm => hprocs pm (List.mem_cons_of_mem _ hpm)
    have htable : w.sweepTable i p pm.table.toList = .ok () := by
      apply sweepTable_ok h
      rintro ⟨a, m⟩ ha
      rw [Std.ExtTreeMap.mem_toList_iff_getElem?_eq_some] at ha
      refine ⟨?_, hmirror.known a m ha⟩
      rw [hmirror.toHeld.capability, ha, Option.map_some]
    rw [World.sweepProcs, hp, expect_some, ok_bind, ensure_true, ok_bind, htable, ok_bind]
    · exact hrest
    · rw [hmirror.toHeld.handles]
      exact beq_self_eq_true _

omit w in
theorem Stashed.cons {n : ℕ} {cap : Capability} {m : CapModel} {stash : List (Capability × CapModel)}
    (h : Stashed n ((cap, m) :: stash)) : cap = m.cap ∧ m.Known n ∧ Stashed n stash :=
  ⟨(h _ List.mem_cons_self).1, (h _ List.mem_cons_self).2,
    fun x hx => h x (List.mem_cons_of_mem _ hx)⟩

theorem sweepStash_ok (h : Authority w.k w.channelObjects w.regions)
    {stash : List (Capability × CapModel)} (hstash : Stashed w.regions.length stash) :
    w.sweepStash stash = .ok () := by
  induction stash with
  | nil => rfl
  | cons x stash ih =>
    obtain ⟨cap, m⟩ := x
    obtain ⟨rfl, hknown, hlater⟩ := hstash.cons
    have hrest := ih hlater
    rw [World.sweepStash, predictCheck_eq h hknown, ok_bind, ensure_true, ok_bind]
    · exact hrest
    · exact beq_self_eq_true _

/-- Whether a capability ever seen lets its holder read region `r` now. -/
def World.reads (w : World) (r : ℕ) (x : Capability × CapModel) : Bool :=
  decide (x.2.obj = .region r) && isOk (w.k.check x.1 .READ)

theorem findAuditor_eq (h : Authority w.k w.channelObjects w.regions) (r : ℕ)
    {stash : List (Capability × CapModel)} (hstash : Stashed w.regions.length stash) :
    w.findAuditor r stash = .ok ((stash.find? (w.reads r)).map Prod.fst) := by
  induction stash with
  | nil => rfl
  | cons x stash ih =>
    obtain ⟨cap, m⟩ := x
    obtain ⟨rfl, hknown, hlater⟩ := hstash.cons
    have hrest := ih hlater
    rw [World.findAuditor]
    by_cases hobj : m.obj = .region r
    · rw [if_pos hobj, predictCheck_eq h hknown, ok_bind]
      cases hcheck : isOk (w.k.check m.cap .READ) with
      | true => simp [World.reads, hobj, hcheck, pure, Except.pure]
      | false => simp [World.reads, hcheck, hrest]
    · rw [if_neg hobj, hrest]
      simp [World.reads, hobj]

theorem reads_alive (h : Authority w.k w.channelObjects w.regions) (hstash : Stashed w.regions.length w.stash)
    {r : ℕ} {x : Capability × CapModel} (hx : x ∈ w.stash) (hreads : w.reads r x = true) :
    ∃ region, w.regions[r]? = some region ∧ x.1.object = region.object ∧ region.alive = true ∧
      w.k.check x.1 .READ = .ok () := by
  obtain ⟨hcap, hknown⟩ := hstash x hx
  rw [World.reads, Bool.and_eq_true, decide_eq_true_eq] at hreads
  obtain ⟨hobj, hok⟩ := hreads
  obtain ⟨region, hr⟩ := lookup (hknown.region r hobj)
  obtain ⟨hobject, hepoch⟩ := h.region r region hr
  have hsame : x.1.object = region.object := by rw [hcap, CapModel.cap, hobj, hobject]; rfl
  have hcheck : w.k.check x.1 .READ = .ok () := by
    cases hc : w.k.check x.1 .READ with
    | ok u => rfl
    | error e => rw [hc] at hok; cases hok
  refine ⟨region, hr, hsame, ?_, hcheck⟩
  have hlive := (Kernel.check_eq_ok_iff.mp hcheck).1
  rw [Kernel.Live, hsame, hepoch] at hlive
  by_contra hdead
  rw [if_neg hdead] at hlive
  cases hlive

theorem sweepRegions_ok (h : Authority w.k w.channelObjects w.regions) (hstash : Stashed w.regions.length w.stash)
    (r : ℕ) {regions : List RegionModel} (hregions : ∀ i region, regions[i]? = some region →
      w.regions[r + i]? = some region ∧
      (region.alive = true → w.mem.regions[region.object]? = some region.bytes)) :
    w.sweepRegions r regions = .ok () := by
  induction regions generalizing r with
  | nil => rfl
  | cons region regions ih =>
    obtain ⟨hr, hbytes⟩ := hregions 0 region rfl
    have hrest := ih (r + 1) fun i region' hi => by
      have hnext := hregions (i + 1) region' hi
      rwa [Nat.add_comm i 1, ← Nat.add_assoc] at hnext
    rw [World.sweepRegions, World.auditor, findAuditor_eq h r hstash, ok_bind]
    cases hfind : w.stash.find? (w.reads r) with
    | none => exact hrest
    | some x =>
      obtain ⟨region', hr', hobject, halive, hcheck⟩ :=
        reads_alive h hstash (List.mem_of_find?_eq_some hfind) (List.find?_some hfind)
      obtain rfl := Option.some.inj (hr.symm.trans hr')
      have hreal : w.mem.inspect w.k x.1 id = .ok region.bytes := by
        simp only [RegionRegistry.inspect, hcheck, hobject, hbytes halive, id]
      simp only [Option.map_some, hreal]
      rw [ensure_true, ok_bind]
      · exact hrest
      · exact beq_self_eq_true _

end Sweeps

/-- The audit finds nothing when the model is in step. -/
theorem Mirrors.sweep_ok {tr : List SystemEntry} {w : World} (h : Mirrors tr w) : w.sweep = .ok () := by
  have hprocs : w.sweepProcs 0 w.procs = .ok () := by
    apply sweepProcs_ok h.authority
    intro pm hpm
    obtain ⟨i, hi⟩ := List.getElem?_of_mem hpm
    obtain ⟨hpid, p, hp, hmirror⟩ := h.tables i pm hi
    exact ⟨p, hpid ▸ hp, hmirror⟩
  have hregions : w.sweepRegions 0 w.regions = .ok () := by
    apply sweepRegions_ok h.authority h.stashed
    intro i region hi
    refine ⟨by rwa [Nat.zero_add], fun halive => ?_⟩
    rw [h.storage.bytes region (List.mem_of_getElem? hi), if_pos halive]
  simp only [World.sweep, hprocs, ok_bind, sweepStash_ok h.authority h.stashed]
  rw [ensure_true, ok_bind]
  · exact hregions
  · rw [h.storage.count]
    exact beq_self_eq_true _

end Muaddib.Chaos
