import Muaddib.ChaosVerdicts

/-! # An injected fault is caught

A corrupted byte of the model passes every earlier part of the next audit, and fails it at the region
that was corrupted. -/
namespace Muaddib.Chaos
open LabelledRuns

/-- Region `r` has bytes, and the model says that some capability can read them now. -/
def World.Auditable (w : World) (r : ℕ) : Prop :=
  ∃ region, w.regions[r]? = some region ∧ region.bytes ≠ [] ∧
    ∃ x ∈ w.stash, x.2.obj = .region r ∧ w.predictCheck x.2 .READ = .ok (.ok ())

def RegionModel.flipped (region : RegionModel) : RegionModel :=
  { region with bytes := region.bytes.set 0 ((region.bytes[0]?.getD 0) ^^^ 0xFF) }

/-- The world after region `r` was corrupted. -/
def World.flip (w : World) (r : ℕ) (region : RegionModel) : World :=
  { w with regions := w.regions.set r region.flipped }

section Corruption
variable {w : World} {r : ℕ} {region : RegionModel}

theorem flipped_bytes (h : region.bytes ≠ []) : region.flipped.bytes ≠ region.bytes := by
  have hpos : 0 < region.bytes.length := List.length_pos_iff.mpr h
  intro heq
  have hbyte : ∀ b : UInt8, b ^^^ 0xFF ≠ b := by decide +kernel
  have hfirst := congrArg (fun bytes => bytes[0]?) heq
  simp only [RegionModel.flipped, List.getElem?_set_self hpos, List.getElem?_eq_getElem hpos,
    Option.getD_some, Option.some.injEq] at hfirst
  exact hbyte _ hfirst

theorem corrupt_eq (hr : w.regions[r]? = some region) (h : region.bytes ≠ []) :
    w.corrupt r = .ok (w.flip r region) := by
  obtain ⟨byte, hbyte⟩ := lookup (List.length_pos_iff.mpr h)
  rw [World.corrupt, index_eq hr, ok_bind, index_eq hbyte, World.flip, RegionModel.flipped, hbyte]
  rfl

/-- The auditor the harness finds is a capability that can read the region. -/
theorem auditable_iff (h : Authority w.k w.channelObjects w.regions)
    (hstash : Stashed w.regions.length w.stash) (hr : w.regions[r]? = some region) :
    w.Auditable r ↔ region.bytes ≠ [] ∧ (w.stash.find? (w.reads r)).isSome = true := by
  have hreads : ∀ x ∈ w.stash, w.reads r x = true ↔
      x.2.obj = .region r ∧ w.predictCheck x.2 .READ = .ok (.ok ()) := by
    intro x hx
    obtain ⟨hcap, hknown⟩ := hstash x hx
    rw [World.reads, Bool.and_eq_true, decide_eq_true_eq, predictCheck_eq h hknown, hcap]
    cases w.k.check x.2.cap .READ with
    | ok u => simp [isOk]
    | error e => simp [isOk]
  rw [List.find?_isSome]
  constructor
  · rintro ⟨region', hr', hbytes, x, hx, hobj, hcheck⟩
    obtain rfl := Option.some.inj (hr.symm.trans hr')
    exact ⟨hbytes, x, hx, (hreads x hx).mpr ⟨hobj, hcheck⟩⟩
  · rintro ⟨hbytes, x, hx, hread⟩
    obtain ⟨hobj, hcheck⟩ := (hreads x hx).mp hread
    exact ⟨region, hr, hbytes, x, hx, hobj, hcheck⟩

theorem findTarget_spec (h : Authority w.k w.channelObjects w.regions)
    (hstash : Stashed w.regions.length w.stash) (k : ℕ) :
    (w.findTarget k (w.regions.drop k) = .ok none ∧ ∀ r, k ≤ r → ¬w.Auditable r) ∨
      ∃ r, w.findTarget k (w.regions.drop k) = .ok (some r) ∧ w.Auditable r ∧
        ∀ i, k ≤ i → i < r → ¬w.Auditable i := by
  generalize hregions : w.regions.drop k = regions
  induction regions generalizing k with
  | nil =>
    refine .inl ⟨rfl, fun r hr => ?_⟩
    rintro ⟨region, hget, -⟩
    have hlt := (List.getElem?_eq_some_iff.mp hget).1
    rw [List.drop_eq_nil_iff] at hregions
    omega
  | cons region regions ih =>
    have hr : w.regions[k]? = some region := by
      rw [← Nat.add_zero k, ← List.getElem?_drop, hregions]
      rfl
    have hrest : w.regions.drop (k + 1) = regions := by
      rw [← List.drop_drop, hregions]
      rfl
    have hfirst := auditable_iff h hstash hr
    by_cases haud : w.Auditable k
    · obtain ⟨hbytes, hfind⟩ := hfirst.mp haud
      refine .inr ⟨k, ?_, haud, fun i hle hlt => by omega⟩
      rw [World.findTarget, if_neg (by simpa using hbytes), World.auditor, findAuditor_eq h k hstash, ok_bind,
        Option.isSome_map, hfind]
      rfl
    · have hskip : w.findTarget k (region :: regions) = w.findTarget (k + 1) regions := by
        rw [World.findTarget]
        by_cases hbytes : region.bytes = []
        · rw [if_pos (by simpa using hbytes)]
        · have hnone : ¬(w.stash.find? (w.reads k)).isSome = true := fun hfind => haud (hfirst.mpr ⟨hbytes, hfind⟩)
          rw [if_neg (by simpa using hbytes), World.auditor, findAuditor_eq h k hstash, ok_bind,
            Option.isSome_map, if_neg hnone]
      have hsplit : ∀ i, k ≤ i → i = k ∨ k + 1 ≤ i := by
        intro i hi
        omega
      rw [hskip]
      rcases ih (k + 1) hrest with ⟨hnone, hall⟩ | ⟨r, hsome, hr', hall⟩
      · refine .inl ⟨hnone, fun i hi => ?_⟩
        rcases hsplit i hi with rfl | hi
        · exact haud
        · exact hall i hi
      · refine .inr ⟨r, hsome, hr', fun i hi hlt => ?_⟩
        rcases hsplit i hi with rfl | hi
        · exact haud
        · exact hall i hi hlt

theorem Authority.flip {k : Kernel} {objects : List ObjectId} {regions : List RegionModel}
    (h : Authority k objects regions) (hr : regions[r]? = some region) :
    Authority k objects (regions.set r region.flipped) := by
  refine ⟨?_, ?_, h.objects, h.channel, fun i region' hi => ?_⟩
  · rw [List.length_set]
    exact h.few
  · rw [List.length_set]
    exact h.nextId
  · rw [List.getElem?_set] at hi
    split at hi
    · next heq =>
      subst heq
      split at hi
      · obtain rfl := Option.some.inj hi
        exact h.region r region hr
      · cases hi
    · exact h.region i region' hi

theorem alive_set {regions : List RegionModel} (hr : regions[r]? = some region) (region' : RegionModel)
    (halive : region'.alive = region.alive) :
    ((regions.set r region').filter fun region => region.alive).length =
      (regions.filter fun region => region.alive).length := by
  have hmap : (regions.set r region').map RegionModel.alive = regions.map RegionModel.alive := by
    rw [List.map_set, halive]
    apply set_self
    rw [List.getElem?_map, hr]
    rfl
  have hcount : ∀ regions : List RegionModel, (regions.filter fun region => region.alive).length =
      (regions.map RegionModel.alive).count true := by
    intro regions
    rw [← List.countP_eq_length_filter, List.count, List.countP_map]
    exact List.countP_congr fun region _ => by simp
  rw [hcount, hmap, ← hcount]

theorem sweepRegions_append (k : ℕ) {front : List RegionModel} (back : List RegionModel)
    (h : w.sweepRegions k front = .ok ()) :
    w.sweepRegions k (front ++ back) = w.sweepRegions (k + front.length) back := by
  induction front generalizing k with
  | nil => rfl
  | cons region front ih =>
    have hnext : w.sweepRegions (k + 1) front = .ok () →
        w.sweepRegions (k + 1) (front ++ back) = w.sweepRegions (k + (front.length + 1)) back := by
      intro hrest
      rw [ih (k + 1) hrest]
      congr 1
      omega
    rw [World.sweepRegions] at h
    rw [List.cons_append, World.sweepRegions, List.length_cons]
    cases hauditor : w.auditor k with
    | error e =>
      rw [hauditor] at h
      cases h
    | ok found =>
      rw [hauditor, ok_bind] at h
      rw [ok_bind]
      cases found with
      | none => exact hnext h
      | some cap =>
        dsimp only at h ⊢
        cases hcheck : ensure (w.mem.inspect w.k cap id == .ok region.bytes) ("region " ++ debug k ++
            " bytes " ++ debug (w.mem.inspect w.k cap id) ++ " != model " ++ debug region.bytes) with
        | error e =>
          rw [hcheck] at h
          cases h
        | ok u =>
          rw [hcheck] at h
          exact hnext h

def mismatch (r : ℕ) (stored shown : Bytes) : String :=
  "region " ++ debug r ++ " bytes " ++ debug (.ok stored : Except MemoryError Bytes) ++ " != model " ++
    debug shown

/-- The audit of a corrupted model fails at the region that was corrupted. -/
theorem flip_sweep {tr : List SystemEntry} (h : Mirrors tr w) (hr : w.regions[r]? = some region)
    (haud : w.Auditable r) : (w.flip r region).sweep =
      .error (.err (mismatch r region.bytes region.flipped.bytes)) := by
  have hauthority : Authority w.k w.channelObjects (w.flip r region).regions := h.authority.flip hr
  have hlength : (w.flip r region).regions.length = w.regions.length := List.length_set
  have hstash : Stashed (w.flip r region).regions.length w.stash := hlength ▸ h.stashed
  have hprocs : (w.flip r region).sweepProcs 0 w.procs = .ok () := by
    apply sweepProcs_ok (w := w.flip r region) hauthority
    intro pm hpm
    obtain ⟨i, hi⟩ := List.getElem?_of_mem hpm
    obtain ⟨hpid, p, hp, hmirror⟩ := h.tables i pm hi
    exact ⟨p, hpid ▸ hp, hlength ▸ hmirror⟩
  have hlt : r < w.regions.length := (List.getElem?_eq_some_iff.mp hr).1
  have hsplit : (w.flip r region).regions =
      w.regions.take r ++ region.flipped :: w.regions.drop (r + 1) := by
    rw [World.flip, List.set_eq_take_append_cons_drop, if_pos hlt]
  have hfront : (w.flip r region).sweepRegions 0 (w.regions.take r) = .ok () := by
    apply sweepRegions_ok (w := w.flip r region) hauthority hstash
    intro i region' hi
    have hir : i < r := by
      have hi' := (List.getElem?_eq_some_iff.mp hi).1
      rw [List.length_take] at hi'
      omega
    rw [List.getElem?_take_of_lt hir] at hi
    refine ⟨?_, fun halive => ?_⟩
    · rw [Nat.zero_add, World.flip, List.getElem?_set_ne (by omega)]
      exact hi
    · have hstored := h.storage.bytes region' (List.mem_of_getElem? hi)
      rwa [if_pos halive] at hstored
  obtain ⟨hbytes, hfind⟩ := (auditable_iff h.authority h.stashed hr).mp haud
  obtain ⟨x, hx⟩ := Option.isSome_iff_exists.mp hfind
  obtain ⟨region', hr', hobject, halive, hcheck⟩ :=
    reads_alive h.authority h.stashed (List.mem_of_find?_eq_some hx) (List.find?_some hx)
  obtain rfl := Option.some.inj (hr.symm.trans hr')
  have hstored := h.storage.bytes region (List.mem_of_getElem? hr)
  rw [if_pos halive] at hstored
  have hreal : (w.flip r region).mem.inspect (w.flip r region).k x.1 id = .ok region.bytes := by
    simp only [World.flip, RegionRegistry.inspect, hcheck, hobject, hstored, id]
  have hauditor : (w.flip r region).auditor r = .ok (some x.1) := by
    have hfound : (w.flip r region).auditor r = .ok ((w.stash.find? (w.reads r)).map Prod.fst) :=
      findAuditor_eq (w := w.flip r region) hauthority r hstash
    rw [hfound, hx]
    rfl
  have hdiffer : (Except.ok region.bytes == (.ok region.flipped.bytes : Except MemoryError Bytes)) = false := by
    apply beq_eq_false_iff_ne.mpr
    intro heq
    exact flipped_bytes hbytes (Except.ok.inj heq).symm
  have hcaught : (w.flip r region).sweepRegions r (region.flipped :: w.regions.drop (r + 1)) =
      .error (.err (mismatch r region.bytes region.flipped.bytes)) := by
    rw [World.sweepRegions, hauditor, ok_bind]
    dsimp only
    rw [hreal, hdiffer]
    rfl
  have hregions : (w.flip r region).sweepRegions 0 (w.flip r region).regions =
      .error (.err (mismatch r region.bytes region.flipped.bytes)) := by
    rw [hsplit, sweepRegions_append 0 _ hfront, Nat.zero_add, List.length_take, Nat.min_eq_left hlt.le]
    exact hcaught
  have hstashOk : (w.flip r region).sweepStash w.stash = .ok () :=
    sweepStash_ok (w := w.flip r region) hauthority hstash
  have hcount : (w.mem.regionCount ==
      ((w.flip r region).regions.filter fun region => region.alive).length) = true := by
    rw [World.flip, alive_set hr region.flipped rfl, h.storage.count]
    exact beq_self_eq_true _
  rw [World.sweep]
  change ((w.flip r region).sweepProcs 0 w.procs >>= fun _ => (w.flip r region).sweepStash w.stash >>= fun _ =>
    ensure (w.mem.regionCount == ((w.flip r region).regions.filter fun region => region.alive).length) _ >>=
      fun _ => (w.flip r region).sweepRegions 0 (w.flip r region).regions) = _
  rw [hprocs, ok_bind, hstashOk, ok_bind, ensure_true _ hcount, ok_bind]
  exact hregions

/-- Region `r` is the one that the harness corrupts. -/
structure World.FirstAuditable (w : World) (r : ℕ) (region : RegionModel) : Prop where
  region : w.regions[r]? = some region
  auditable : w.Auditable r
  first : ∀ i, i < r → ¬w.Auditable i

theorem inject_spec {tr : List SystemEntry} (h : Mirrors tr w) (at_ step : ℕ) :
    (w.inject (some (.corruptModelAt at_)) step = .ok (w, some (.corruptModelAt at_)) ∧
      (at_ ≤ step → ∀ r, ¬w.Auditable r)) ∨
    at_ ≤ step ∧ ∃ r region, w.FirstAuditable r region ∧
      w.inject (some (.corruptModelAt at_)) step = .ok (w.flip r region, none) := by
  rw [World.inject]
  by_cases hdue : at_ ≤ step
  · rw [if_pos hdue]
    rcases findTarget_spec h.authority h.stashed 0 with ⟨hnone, hall⟩ | ⟨r, hsome, haud, hfirst⟩
    · rw [List.drop_zero] at hnone
      rw [hnone, ok_bind]
      exact .inl ⟨rfl, fun _ r => hall r (Nat.zero_le r)⟩
    · rw [List.drop_zero] at hsome
      obtain ⟨region, hr, hbytes, hread⟩ := haud
      refine .inr ⟨hdue, r, region, ⟨hr, ⟨region, hr, hbytes, hread⟩, fun i => hfirst i (Nat.zero_le i)⟩, ?_⟩
      rw [hsome, ok_bind]
      dsimp only
      rw [corrupt_eq hr hbytes]
      rfl
  · rw [if_neg hdue]
    exact .inl ⟨rfl, fun hle => absurd hle hdue⟩

end Corruption

/-- After operation `i` of a sequence that starts at a step, the fault is due and some region can be
audited. -/
structure Exposed (at_ step : ℕ) (ops : List Op) (start : World) (i : ℕ) (op : Op) (w : World) :
    Prop where
  op : ops[i]? = some op
  world : audited (ops.take (i + 1)) start = .ok w
  due : at_ ≤ step + i
  auditable : ∃ r, w.Auditable r

section Runs
variable {tr : List SystemEntry} {w w' v : World} {rng : SplitMix64} {op op' : Op} {ops : List Op}
  {at_ step n i : ℕ}

theorem audited_cons (hstep : w.execute op = .ok w') (hsweep : w'.sweep = .ok ()) (ops : List Op) :
    audited (op :: ops) w = audited ops w' := by
  rw [audited, hstep, ok_bind, hsweep]
  rfl

theorem exposed_zero (hstep : w.execute op = .ok w') (hsweep : w'.sweep = .ok ()) :
    Exposed at_ step (op :: ops) w 0 op' v ↔
      op = op' ∧ w' = v ∧ at_ ≤ step ∧ ∃ r, w'.Auditable r := by
  have haudited : audited ((op :: ops).take 1) w = .ok w' := by
    rw [List.take_succ_cons, audited_cons hstep hsweep]
    rfl
  constructor
  · rintro ⟨hop, hworld, hdue, haud⟩
    rw [Nat.zero_add, haudited] at hworld
    obtain rfl := Except.ok.inj hworld
    exact ⟨Option.some.inj hop, rfl, hdue, haud⟩
  · rintro ⟨rfl, rfl, hdue, haud⟩
    exact ⟨rfl, haudited, hdue, haud⟩

theorem exposed_succ (hstep : w.execute op = .ok w') (hsweep : w'.sweep = .ok ()) :
    Exposed at_ step (op :: ops) w (i + 1) op' v ↔ Exposed at_ (step + 1) ops w' i op' v := by
  have haudited : audited ((op :: ops).take (i + 1 + 1)) w = audited (ops.take (i + 1)) w' := by
    rw [List.take_succ_cons, audited_cons hstep hsweep]
  have hindex : step + (i + 1) = step + 1 + i := by omega
  constructor
  · rintro ⟨hop, hworld, hdue, haud⟩
    rw [haudited] at hworld
    exact ⟨hop, hworld, hindex ▸ hdue, haud⟩
  · rintro ⟨hop, hworld, hdue, haud⟩
    rw [← haudited] at hworld
    exact ⟨hop, hworld, hindex ▸ hdue, haud⟩

theorem runStep_caught (config : ChaosConfig)
    (next : ℕ → SplitMix64 → World → Option Fault → Except ChaosFailure World) {w'' : World}
    {fault fault' : Option Fault} {message : String} (hstep : w.execute op = .ok w')
    (hinject : w'.inject fault step = .ok (w'', fault')) (hsweep : w''.sweep = .error (.err message)) :
    runStep config next step (op, rng) w fault =
      .error ⟨config.seed, config.steps, step, debug op ++ " (" ++ op.name ++ ")", message⟩ := by
  rw [runStep, hstep]
  change (config.guarded step _ _ (w'.inject fault step) >>= _) = _
  rw [hinject]
  change (config.guarded step _ _ w''.sweep >>= fun _ => next (step + 1) rng w'' fault') = _
  rw [hsweep]
  rfl

def caughtAt (config : ChaosConfig) (step : ℕ) (op : Op) (r : ℕ) (region : RegionModel) : ChaosFailure :=
  ⟨config.seed, config.steps, step, debug op ++ " (" ++ op.name ++ ")",
    mismatch r region.bytes region.flipped.bytes⟩

/-- The outcome of a run with a fault: it fails at the first step where the fault is due and some
region can be audited, and without such a step it is the run without the fault. -/
theorem runLoop_fault (config : ChaosConfig) (at_ step : ℕ) (h : Running tr n rng w) :
    (∃ i op v, Exposed at_ step (generated n rng w) w i op v ∧
      (∀ j, j < i → ∀ op' v', ¬Exposed at_ step (generated n rng w) w j op' v') ∧
      ∃ r region, v.FirstAuditable r region ∧
        runLoop config n step rng w (some (.corruptModelAt at_)) =
          .error (caughtAt config (step + i) op r region)) ∨
    (∀ i op v, ¬Exposed at_ step (generated n rng w) w i op v) ∧
      runLoop config n step rng w (some (.corruptModelAt at_)) = runLoop config n step rng w none := by
  induction n generalizing step rng w tr with
  | zero =>
    refine .inr ⟨fun i op v hexposed => ?_, rfl⟩
    have hop := hexposed.op
    rw [generated] at hop
    cases hop
  | succ n ih =>
    obtain ⟨op, rng', w', hnext, hlater⟩ := h.next
    have hsweep := hnext.mirrors.sweep_ok
    have hplain : runLoop config (n + 1) step rng w none = runLoop config n (step + 1) rng' w' none := by
      rw [runLoop, hnext.generate, runStep_ok config _ step hnext.execute rfl hsweep]
    rw [hnext.ops, hplain]
    rcases inject_spec hnext.mirrors at_ step with ⟨hinject, hnone⟩ | ⟨hdue, r, region, hfirst, hinject⟩
    · have hnot : ∀ op' v, ¬Exposed at_ step (op :: generated n rng' w') w 0 op' v := by
        intro op' v hexposed
        obtain ⟨-, rfl, hdue, r, haud⟩ := (exposed_zero hnext.execute hsweep).mp hexposed
        exact hnone hdue r haud
      have hpending : runLoop config (n + 1) step rng w (some (.corruptModelAt at_)) =
          runLoop config n (step + 1) rng' w' (some (.corruptModelAt at_)) := by
        rw [runLoop, hnext.generate, runStep_ok config _ step hnext.execute hinject hsweep]
      rw [hpending]
      rcases ih (step + 1) hlater with
        ⟨i, op', v, hexposed, hbefore, r, region, hfirst, hcaught⟩ | ⟨hall, hsame⟩
      · have hindex : step + 1 + i = step + (i + 1) := by omega
        refine .inl ⟨i + 1, op', v, (exposed_succ hnext.execute hsweep).mpr hexposed, ?_, r, region, hfirst, ?_⟩
        · intro j hj op'' v'' hearlier
          cases j with
          | zero => exact hnot op'' v'' hearlier
          | succ j =>
            exact hbefore j (by omega) op'' v'' ((exposed_succ hnext.execute hsweep).mp hearlier)
        · rw [hcaught, hindex]
      · refine .inr ⟨fun i op' v hexposed => ?_, hsame⟩
        cases i with
        | zero => exact hnot op' v hexposed
        | succ i => exact hall i op' v ((exposed_succ hnext.execute hsweep).mp hexposed)
    · have hexposed : Exposed at_ step (op :: generated n rng' w') w 0 op w' :=
        (exposed_zero hnext.execute hsweep).mpr ⟨rfl, rfl, hdue, r, hfirst.auditable⟩
      refine .inl ⟨0, op, w', hexposed, fun j hj => absurd hj (Nat.not_lt_zero j), r, region, hfirst, ?_⟩
      rw [runLoop, hnext.generate, runStep_caught config _ hnext.execute hinject
        (flip_sweep hnext.mirrors hfirst.region hfirst.auditable)]
      rfl

end Runs

/-- An injected fault is caught at the first step where it is due and some region can be audited, by
the bytes of the first such region. Without such a step the run is the run without the fault. -/
theorem runChaos_fault (config : ChaosConfig) {at_ : ℕ} (hfault : config.fault = some (.corruptModelAt at_))
    (hsteps : config.steps < 2 ^ 64)
    (hsparing : Sparing (runTrace (seededOps config.seed config.steps))) :
    (∃ s op w, Exposed at_ 0 (seededOps config.seed config.steps) World.boot s op w ∧
      (∀ s', s' < s → ∀ op' w',
        ¬Exposed at_ 0 (seededOps config.seed config.steps) World.boot s' op' w') ∧
      ∃ r region, w.FirstAuditable r region ∧ runChaos config = .error (caughtAt config s op r region)) ∨
    (∀ s op w, ¬Exposed at_ 0 (seededOps config.seed config.steps) World.boot s op w) ∧
      runChaos config = runChaos { config with fault := none } ∧
      ∃ summary, runChaos config = .ok summary := by
  rcases runLoop_fault config at_ 0 (boot_running hsparing) with
    ⟨s, op, w, hexposed, hbefore, r, region, hfirst, hcaught⟩ | ⟨hall, hsame⟩
  · refine .inl ⟨s, op, w, hexposed, hbefore, r, region, hfirst, ?_⟩
    rw [Nat.zero_add] at hcaught
    simp only [runChaos, runSteps, World.new_eq, ChaosConfig.guarded, Except.mapError, bind, Except.bind,
      hfault, hcaught]
  · obtain ⟨w, hloop, haudited, hmirrors⟩ := runLoop_seededOps config hsparing
    obtain ⟨w', hloop', haudited', hmirrors'⟩ :=
      runLoop_seededOps { config with fault := none } hsparing
    obtain rfl : w = w' := Except.ok.inj (haudited.symm.trans haudited')
    have hcheck := seededOps_causality hsteps hsparing hmirrors
    have hrun : runChaos config = .ok (summaryOf config w) := by
      apply runChaos_of_loop _ hmirrors hcheck
      rw [hfault]
      exact hsame.trans hloop
    have hplain : runChaos { config with fault := none } = .ok (summaryOf config w) :=
      runChaos_of_loop hloop' hmirrors' hcheck
    exact .inr ⟨hall, hrun.trans hplain.symm, summaryOf config w, hrun⟩

/-- A fault from the tenth step on, in a run of a thousand. -/
theorem runChaos_fault_tenth :
    (∃ s op w, Exposed 10 0 (seededOps 0xFA17 1000) World.boot s op w ∧
      (∀ s', s' < s → ∀ op' w', ¬Exposed 10 0 (seededOps 0xFA17 1000) World.boot s' op' w') ∧
      ∃ r region, w.FirstAuditable r region ∧
        runChaos ⟨0xFA17, 1000, some (.corruptModelAt 10)⟩ =
          .error (caughtAt ⟨0xFA17, 1000, some (.corruptModelAt 10)⟩ s op r region)) ∨
    (∀ s op w, ¬Exposed 10 0 (seededOps 0xFA17 1000) World.boot s op w) ∧
      runChaos ⟨0xFA17, 1000, some (.corruptModelAt 10)⟩ = runChaos ⟨0xFA17, 1000, none⟩ ∧
      ∃ summary, runChaos ⟨0xFA17, 1000, some (.corruptModelAt 10)⟩ = .ok summary :=
  runChaos_fault ⟨0xFA17, 1000, some (.corruptModelAt 10)⟩ rfl (by decide)
    (seededOps_sparing 0xFA17 (by decide))

end Muaddib.Chaos
