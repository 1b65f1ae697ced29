import Muaddib.ChaosExactness

/-! # What the stash remembers

Every capability that enters a mirrored table enters the stash, and nothing leaves it. So the stash is
what the processes ever held, and the audits look at all of it. -/
namespace Muaddib.Chaos
open LabelledRuns
open Std (ExtTreeMap)

def World.Covered (w : World) : Prop :=
  ∀ pm ∈ w.procs, ∀ (h : Handle) (m : CapModel), pm.table[h]? = some m → ∃ x ∈ w.stash, x.2 = m

/-- The stash grew by capabilities that some process holds, and still covers the tables. -/
structure Extends (w w' : World) : Prop where
  stash : ∃ more, w'.stash = w.stash ++ more ∧ ∀ x ∈ more, w'.sched.Holds x.1
  covered : w.Covered → w'.Covered

namespace Extends
variable {w w₁ w' : World}

theorem of_same (hprocs : w'.procs = w.procs) (hstash : w'.stash = w.stash) : Extends w w' := by
  refine ⟨⟨[], by rw [hstash, List.append_nil], nofun⟩, fun h => ?_⟩
  rw [World.Covered, hprocs, hstash]
  exact h

theorem after (h : Extends w₁ w') (hstash : w₁.stash = w.stash) (hcovered : w.Covered → w₁.Covered) :
    Extends w w' := ⟨hstash ▸ h.stash, h.covered ∘ hcovered⟩

/-- A change that keeps tables, stash and processes may come later. -/
theorem before (h : Extends w w₁) (hprocs : w'.procs = w₁.procs) (hstash : w'.stash = w₁.stash)
    (hsched : w'.sched = w₁.sched) : Extends w w' := by
  refine ⟨?_, fun hw => ?_⟩
  · rw [hstash, hsched]
    exact h.stash
  · rw [World.Covered, hprocs, hstash]
    exact h.covered hw

theorem trans (h : Extends w w₁) (h' : Extends w₁ w') (hsched : w'.sched = w₁.sched) : Extends w w' := by
  obtain ⟨more, hmore, hheld⟩ := h.stash
  obtain ⟨later, hlater, hheld'⟩ := h'.stash
  refine ⟨⟨more ++ later, by rw [hlater, hmore, List.append_assoc], fun x hx => ?_⟩, h'.covered ∘ h.covered⟩
  rcases List.mem_append.mp hx with hx | hx
  · rw [hsched]
    exact hheld x hx
  · exact hheld' x hx

end Extends

section Operations
variable {w w' : World} {p : ℕ}

/-- Entries that go with their capabilities keep the stash a cover. -/
theorem covered_insert {pm : ProcModel} {h : Handle} {m : CapModel} {cap : Capability} (hw : w.Covered)
    (hpm : w.procs[p]? = some pm) (hprocs : w'.procs = w.procs.set p { pm with table := pm.table.insert h m })
    (hstash : w'.stash = w.stash ++ [(cap, m)]) : w'.Covered := by
  have hold : ∀ pm ∈ w.procs, ∀ (a : Handle) (m' : CapModel), pm.table[a]? = some m' →
      ∃ x ∈ w.stash ++ [(cap, m)], x.2 = m' := by
    intro pm' hpm' a m' ha
    obtain ⟨x, hx, hxm⟩ := hw pm' hpm' a m' ha
    exact ⟨x, List.mem_append_left _ hx, hxm⟩
  rw [World.Covered, hprocs, hstash]
  intro pm' hpm' a m' ha
  rcases List.mem_or_eq_of_mem_set hpm' with hpm' | rfl
  · exact hold pm' hpm' a m' ha
  · rw [FiniteMaps.getElem?_insert] at ha
    split at ha
    · exact ⟨(cap, m), List.mem_append_right _ List.mem_cons_self, Option.some.inj ha⟩
    · exact hold pm (List.mem_of_getElem? hpm) a m' ha

theorem covered_erase {pm : ProcModel} {h : Handle} (hw : w.Covered) (hpm : w.procs[p]? = some pm)
    (hprocs : w'.procs = w.procs.set p { pm with table := pm.table.erase h })
    (hstash : w'.stash = w.stash) : w'.Covered := by
  rw [World.Covered, hprocs, hstash]
  intro pm' hpm' a m' ha
  rcases List.mem_or_eq_of_mem_set hpm' with hpm' | rfl
  · exact hw pm' hpm' a m' ha
  · rw [FiniteMaps.getElem?_erase] at ha
    split at ha
    · cases ha
    · exact hw pm (List.mem_of_getElem? hpm) a m' ha

theorem install_extends {cap : Capability} {m : CapModel} (h : w.install p cap m = .ok w') :
    Extends w w' := by
  obtain ⟨pm, hpm, h⟩ := ok_of_bind h
  obtain ⟨proc, -, h⟩ := ok_of_bind h
  cases h
  have hget : (proc.grant cap).2.capability ⟨proc.nextHandle⟩ = some cap := by
    rw [Process.capability_grant, if_pos rfl]
  refine ⟨⟨[(cap, m)], rfl, fun x hx => ?_⟩, fun hw => covered_insert hw (index_ok_iff.mp hpm) rfl rfl⟩
  obtain rfl := List.mem_singleton.mp hx
  refine ⟨pm.pid, (proc.grant cap).2, _, ?_, hget⟩
  change (w.sched.setProcess pm.pid _).process pm.pid = _
  rw [process_setProcess, if_pos rfl]
  rfl

theorem newRegion_extends {size : ℕ} (h : w.newRegion p size = .ok w') : Extends w w' := by
  obtain ⟨cap, -, h⟩ := ok_of_bind h
  obtain ⟨bytes, -, h⟩ := ok_of_bind h
  exact (install_extends h).after rfl id

theorem recordEvent_same {stamp : EventStamp} {preds : List ℕ} {i : ℕ}
    (h : w.recordEvent p stamp preds = .ok (i, w')) :
    w'.procs = w.procs ∧ w'.stash = w.stash ∧ w'.sched = w.sched := by
  obtain ⟨prev, -, h⟩ := ok_of_bind h
  cases h
  exact ⟨rfl, rfl, rfl⟩

theorem mirror_extends {pid : ProcessId} {h : Handle} {m : CapModel} (hw : w.mirror p pid h m = .ok w') :
    Extends w w' ∧ w'.sched = w.sched := by
  obtain ⟨proc, hproc, hw⟩ := ok_of_bind hw
  obtain ⟨cap, hcap, hw⟩ := ok_of_bind hw
  obtain ⟨pm, hpm, hw⟩ := ok_of_bind hw
  cases hw
  refine ⟨⟨⟨[(cap, m)], rfl, fun x hx => ?_⟩, fun hw => covered_insert hw (index_ok_iff.mp hpm) rfl rfl⟩, rfl⟩
  obtain rfl := List.mem_singleton.mp hx
  exact ⟨pid, proc, h, expect_ok_iff.mp hproc, expect_ok_iff.mp hcap⟩

theorem mirrorAll_extends {pid : ProcessId} {delivered : List (Handle × CapModel)}
    (h : World.mirrorAll p pid delivered w = .ok w') : Extends w w' ∧ w'.sched = w.sched := by
  induction delivered generalizing w with
  | nil =>
    cases h
    exact ⟨.of_same rfl rfl, rfl⟩
  | cons x delivered ih =>
    obtain ⟨w₁, hfirst, h⟩ := ok_of_bind h
    obtain ⟨hext, hsched⟩ := mirror_extends hfirst
    obtain ⟨hrest, hsched'⟩ := ih h
    exact ⟨hext.trans hrest hsched', hsched'.trans hsched⟩

theorem removeHandle_covered {h : Handle} (hw : w.removeHandle p h = .ok w') :
    w'.stash = w.stash ∧ (w.Covered → w'.Covered) := by
  obtain ⟨pm, hpm, hw⟩ := ok_of_bind hw
  cases hw
  exact ⟨rfl, fun h => covered_erase h (index_ok_iff.mp hpm) rfl rfl⟩

theorem applyModel_covered {grants : List (Handle × GrantKind)} {resolved delivered : List CapModel}
    (h : World.applyModel p grants resolved w = .ok (delivered, w')) :
    w'.stash = w.stash ∧ (w.Covered → w'.Covered) := by
  induction grants generalizing resolved delivered w with
  | nil =>
    cases h
    exact ⟨rfl, id⟩
  | cons x grants ih =>
    obtain ⟨a, kind⟩ := x
    cases resolved with
    | nil =>
      cases h
      exact ⟨rfl, id⟩
    | cons m resolved =>
      cases kind with
      | transfer =>
        obtain ⟨w₁, hremove, h⟩ := ok_of_bind h
        obtain ⟨⟨rest, w₂⟩, hrest, h⟩ := ok_of_bind h
        cases h
        obtain ⟨hstash, hcovered⟩ := removeHandle_covered hremove
        obtain ⟨hstash', hcovered'⟩ := ih hrest
        exact ⟨hstash'.trans hstash, hcovered' ∘ hcovered⟩
      | move =>
        obtain ⟨w₁, hremove, h⟩ := ok_of_bind h
        obtain ⟨hstash, hcovered⟩ := removeHandle_covered hremove
        cases hobj : m.obj with
        | channel c =>
          rw [hobj] at h
          cases h
        | region r =>
          rw [hobj] at h
          obtain ⟨region, -, h⟩ := ok_of_bind h
          obtain ⟨⟨rest, w₂⟩, hrest, h⟩ := ok_of_bind h
          cases h
          obtain ⟨hstash', hcovered'⟩ := ih hrest
          exact ⟨hstash'.trans hstash, hcovered' ∘ hcovered⟩
      | derive rights =>
        obtain ⟨⟨rest, w₁⟩, hrest, h⟩ := ok_of_bind h
        cases h
        exact ih hrest

theorem applyGrantsModel_covered {grants : List (Handle × GrantKind)} {predicted : Option (List CapModel)}
    (h : w.applyGrantsModel p grants = .ok (predicted, w')) :
    w'.stash = w.stash ∧ (w.Covered → w'.Covered) := by
  obtain ⟨resolved, -, h⟩ := ok_of_bind h
  cases resolved with
  | none =>
    cases h
    exact ⟨rfl, id⟩
  | some resolved =>
    dsimp only at h
    split at h
    · cases h
      exact ⟨rfl, id⟩
    · obtain ⟨⟨delivered, w₁⟩, happly, h⟩ := ok_of_bind h
      cases h
      exact applyModel_covered happly

theorem recordSpawn_extends {child : ProcessId} {delivered : List CapModel}
    (h : w.recordSpawn p child delivered = .ok w') : Extends w w' := by
  obtain ⟨parent, -, h⟩ := ok_of_bind h
  obtain ⟨⟨event, w₁⟩, hrecord, h⟩ := ok_of_bind h
  obtain ⟨childProc, -, h⟩ := ok_of_bind h
  obtain ⟨u, -, h⟩ := ok_of_bind h
  obtain ⟨w₂, hmirror, h⟩ := ok_of_bind h
  obtain ⟨childProc', -, h⟩ := ok_of_bind h
  obtain ⟨⟨birth, w₃⟩, hbirth, h⟩ := ok_of_bind h
  cases h
  obtain ⟨hprocs, hstash, -⟩ := recordEvent_same hrecord
  obtain ⟨hprocs', hstash', hsched'⟩ := recordEvent_same hbirth
  refine ((mirrorAll_extends hmirror).1.after hstash fun hw => ?_).before hprocs' hstash' hsched'
  intro pm hpm a m ha
  rw [hprocs] at hpm
  rcases List.mem_append.mp hpm with hpm | hpm
  · obtain ⟨x, hx, hxm⟩ := hw pm hpm a m ha
    exact ⟨x, hstash ▸ hx, hxm⟩
  · rw [List.mem_singleton.mp hpm] at ha
    simp at ha

theorem executeSpawn_extends {grants : List (ℕ × GrantKind)} (h : w.executeSpawn p grants = .ok w') :
    Extends w w' := by
  rw [World.executeSpawn] at h
  split at h
  · cases h
    exact .of_same rfl rfl
  · obtain ⟨concrete, -, h⟩ := ok_of_bind h
    obtain ⟨⟨predicted, w₁⟩, happly, h⟩ := ok_of_bind h
    obtain ⟨channels, -, h⟩ := ok_of_bind h
    obtain ⟨pm, -, h⟩ := ok_of_bind h
    obtain ⟨result, -, h⟩ := ok_of_bind h
    obtain ⟨hstash, hcovered⟩ := applyGrantsModel_covered happly
    cases result with
    | error e =>
      cases predicted with
      | none =>
        cases h
        exact (Extends.of_same rfl rfl).after hstash hcovered
      | some models => cases h
    | ok child =>
      cases predicted with
      | none => cases h
      | some models => exact ((recordSpawn_extends h).after rfl id).after hstash hcovered

theorem executeSend_extends {channel : ℕ} {grants : List (ℕ × GrantKind)}
    (h : w.executeSend p channel grants = .ok w') : Extends w w' := by
  obtain ⟨concrete, -, h⟩ := ok_of_bind h
  obtain ⟨⟨predicted, w₁⟩, happly, h⟩ := ok_of_bind h
  obtain ⟨chan, -, h⟩ := ok_of_bind h
  obtain ⟨pm, -, h⟩ := ok_of_bind h
  obtain ⟨proc, -, h⟩ := ok_of_bind h
  obtain ⟨result, -, h⟩ := ok_of_bind h
  obtain ⟨hstash, hcovered⟩ := applyGrantsModel_covered happly
  cases result with
  | error e =>
    cases predicted with
    | none =>
      cases h
      exact (Extends.of_same rfl rfl).after hstash hcovered
    | some models => cases h
  | ok stamp =>
    cases predicted with
    | none => cases h
    | some models =>
      obtain ⟨⟨event, w₂⟩, hrecord, h⟩ := ok_of_bind h
      obtain ⟨queue, -, h⟩ := ok_of_bind h
      cases h
      obtain ⟨hprocs, hstash', -⟩ := recordEvent_same hrecord
      exact ((Extends.of_same hprocs hstash').after hstash hcovered).before rfl rfl rfl

theorem executeReceive_extends {channel : ℕ} (h : w.executeReceive p channel = .ok w') :
    Extends w w' := by
  obtain ⟨chan, -, h⟩ := ok_of_bind h
  obtain ⟨pm, -, h⟩ := ok_of_bind h
  obtain ⟨proc, -, h⟩ := ok_of_bind h
  generalize w.channels.receive w.k chan proc = received at h
  obtain ⟨result, channels, proc'⟩ := received
  obtain ⟨queue, -, h⟩ := ok_of_bind h
  cases result with
  | error e => cases h
  | ok delivery =>
    dsimp only at h
    cases delivery with
    | none =>
      cases hhead : queue.head? with
      | none =>
        rw [hhead] at h
        cases h
        exact .of_same rfl rfl
      | some msg =>
        rw [hhead] at h
        cases h
    | some d =>
      cases hhead : queue.head? with
      | none =>
        rw [hhead] at h
        cases h
      | some msg =>
        rw [hhead] at h
        obtain ⟨sentAt, -, h⟩ := ok_of_bind h
        obtain ⟨u, -, h⟩ := ok_of_bind h
        obtain ⟨u', -, h⟩ := ok_of_bind h
        obtain ⟨w₁, hmirror, h⟩ := ok_of_bind h
        obtain ⟨⟨event, w₂⟩, hrecord, h⟩ := ok_of_bind h
        cases h
        obtain ⟨hprocs, hstash, hsched⟩ := recordEvent_same hrecord
        exact (Extends.after (w := w) (mirrorAll_extends hmirror).1 rfl id).before hprocs hstash hsched

theorem noteAccess_procs (w : World) (name : String) (stale ok dead : Bool) (shown : String) :
    (w.noteAccess name stale ok dead shown).procs = w.procs := by
  rw [World.noteAccess]
  split <;> rfl

theorem noteAccess_stash (w : World) (name : String) (stale ok dead : Bool) (shown : String) :
    (w.noteAccess name stale ok dead shown).stash = w.stash := by
  rw [World.noteAccess]
  split <;> rfl

theorem executeRead_extends {pick : Pick} {regionsOnly : Bool} {offset len : ℕ}
    (h : w.executeRead p pick regionsOnly offset len = .ok w') : Extends w w' := by
  obtain ⟨picked, -, h⟩ := ok_of_bind h
  cases picked with
  | none =>
    cases h
    exact .of_same rfl rfl
  | some x =>
    obtain ⟨cap, m, stale⟩ := x
    obtain ⟨access, -, h⟩ := ok_of_bind h
    have hrest : ∀ predicted : Except MemoryError Bytes, (do
        let result ← returned (w.mem.read w.k cap offset len)
        let w := w.noteAccess "read" stale (isOk result) (deadMem result) (debug result)
        ensure (result == predicted) ("read: kernel " ++ debug result ++ ", model " ++ debug predicted)
        return w) = .ok w' → Extends w w' := by
      intro predicted h
      obtain ⟨result, -, h⟩ := ok_of_bind h
      obtain ⟨u, -, h⟩ := ok_of_bind h
      cases h
      exact .of_same (noteAccess_procs _ _ _ _ _ (debug result)) (noteAccess_stash _ _ _ _ _ (debug result))
    cases access with
    | error e => exact hrest _ h
    | ok u =>
      obtain ⟨r, -, h⟩ := ok_of_bind h
      obtain ⟨region, -, h⟩ := ok_of_bind h
      exact hrest _ h

theorem executeWrite_extends {pick : Pick} {regionsOnly : Bool} {offset len : ℕ} {byte : UInt8}
    (h : w.executeWrite p pick regionsOnly offset len byte = .ok w') : Extends w w' := by
  obtain ⟨picked, -, h⟩ := ok_of_bind h
  cases picked with
  | none =>
    cases h
    exact .of_same rfl rfl
  | some x =>
    obtain ⟨cap, m, stale⟩ := x
    obtain ⟨predicted, -, h⟩ := ok_of_bind h
    obtain ⟨data, -, h⟩ := ok_of_bind h
    obtain ⟨result, -, h⟩ := ok_of_bind h
    obtain ⟨u, -, h⟩ := ok_of_bind h
    split at h
    · obtain ⟨r, -, h⟩ := ok_of_bind h
      obtain ⟨region, -, h⟩ := ok_of_bind h
      cases h
      exact .of_same (noteAccess_procs _ _ _ _ _ (debug result)) (noteAccess_stash _ _ _ _ _ (debug result))
    · cases h
      exact .of_same (noteAccess_procs _ _ _ _ _ (debug result)) (noteAccess_stash _ _ _ _ _ (debug result))

theorem executeRevoke_extends {pick : Pick} (h : w.executeRevoke p pick = .ok w') : Extends w w' := by
  obtain ⟨picked, -, h⟩ := ok_of_bind h
  cases picked with
  | none =>
    cases h
    exact .of_same rfl rfl
  | some x =>
    obtain ⟨cap, m, stale⟩ := x
    obtain ⟨predicted, -, h⟩ := ok_of_bind h
    obtain ⟨result, -, h⟩ := ok_of_bind h
    obtain ⟨u, -, h⟩ := ok_of_bind h
    split at h
    · obtain ⟨r, -, h⟩ := ok_of_bind h
      obtain ⟨region, -, h⟩ := ok_of_bind h
      cases h
      exact .of_same (noteAccess_procs _ _ _ _ _ (debug result)) (noteAccess_stash _ _ _ _ _ (debug result))
    · cases h
      exact .of_same (noteAccess_procs _ _ _ _ _ (debug result)) (noteAccess_stash _ _ _ _ _ (debug result))

theorem executeDestroy_extends {pick : Pick} (h : w.executeDestroy p pick = .ok w') : Extends w w' := by
  obtain ⟨picked, -, h⟩ := ok_of_bind h
  cases picked with
  | none =>
    cases h
    exact .of_same rfl rfl
  | some x =>
    obtain ⟨cap, m, stale⟩ := x
    obtain ⟨predicted, -, h⟩ := ok_of_bind h
    generalize w.mem.destroyRegion w.k cap = destroyed at h
    obtain ⟨result, mem, k⟩ := destroyed
    obtain ⟨u, -, h⟩ := ok_of_bind h
    split at h
    · obtain ⟨r, -, h⟩ := ok_of_bind h
      obtain ⟨region, -, h⟩ := ok_of_bind h
      cases h
      exact .of_same (noteAccess_procs _ _ _ _ _ (debug result)) (noteAccess_stash _ _ _ _ _ (debug result))
    · cases h
      exact .of_same (noteAccess_procs _ _ _ _ _ (debug result)) (noteAccess_stash _ _ _ _ _ (debug result))

/-- Every operation extends the stash by what some process holds after it. -/
theorem execute_extends {op : Op} (h : w.execute op = .ok w') : Extends w w' := by
  cases op with
  | newRegion p size =>
    obtain ⟨w₁, hnew, h⟩ := ok_of_bind h
    cases h
    exact (newRegion_extends hnew).before rfl rfl rfl
  | «local» p =>
    obtain ⟨pm, -, h⟩ := ok_of_bind h
    obtain ⟨proc, -, h⟩ := ok_of_bind h
    obtain ⟨⟨event, w₁⟩, hrecord, h⟩ := ok_of_bind h
    cases h
    obtain ⟨hprocs, hstash, -⟩ := recordEvent_same hrecord
    exact (Extends.of_same (w := w) hprocs hstash).before rfl rfl rfl
  | spawn p grants => exact executeSpawn_extends h
  | send p channel grants => exact executeSend_extends h
  | receive p channel => exact executeReceive_extends h
  | read p pick regionsOnly offset len => exact executeRead_extends h
  | write p pick regionsOnly offset len byte => exact executeWrite_extends h
  | revoke p pick => exact executeRevoke_extends h
  | destroy p pick => exact executeDestroy_extends h

end Operations

section Runs
variable {tr : List SystemEntry} {v w : World} {op : Op} {ops : List Op} {c : Capability}

theorem audited_cons_ok (h : audited (op :: ops) v = .ok w) :
    ∃ v', v.execute op = .ok v' ∧ v'.sweep = .ok () ∧ audited ops v' = .ok w := by
  obtain ⟨v', hstep, h⟩ := ok_of_bind h
  obtain ⟨⟨⟩, hsweep, h⟩ := ok_of_bind h
  exact ⟨v', hstep, hsweep, h⟩

theorem stash_grows (h : audited ops v = .ok w) : ∀ x ∈ v.stash, x ∈ w.stash := by
  induction ops generalizing v with
  | nil =>
    cases h
    exact fun x hx => hx
  | cons op ops ih =>
    obtain ⟨v', hstep, -, hrest⟩ := audited_cons_ok h
    obtain ⟨more, hmore, -⟩ := (execute_extends hstep).stash
    intro x hx
    apply ih hrest
    rw [hmore]
    exact List.mem_append_left _ hx

theorem stash_held (h : audited ops v = .ok w) : ∀ x ∈ w.stash, x ∈ v.stash ∨
    ∃ k vk, k ≤ ops.length ∧ audited (ops.take k) v = .ok vk ∧ vk.sched.Holds x.1 := by
  induction ops generalizing v with
  | nil =>
    cases h
    exact fun x hx => .inl hx
  | cons op ops ih =>
    obtain ⟨v', hstep, hsweep, hrest⟩ := audited_cons_ok h
    obtain ⟨more, hmore, hheld⟩ := (execute_extends hstep).stash
    have htake : ∀ k, audited ((op :: ops).take (k + 1)) v = audited (ops.take k) v' := by
      intro k
      rw [List.take_succ_cons, audited_cons hstep hsweep]
    intro x hx
    rcases ih hrest x hx with hx | ⟨k, vk, hk, hvk, hheld'⟩
    · rw [hmore] at hx
      rcases List.mem_append.mp hx with hx | hx
      · exact .inl hx
      · exact .inr ⟨1, v', Nat.succ_pos _, htake 0, hheld x hx⟩
    · exact .inr ⟨k + 1, vk, Nat.succ_le_succ hk, (htake k).trans hvk, hheld'⟩

theorem held_in_stash (h : Mirrors tr w) (hsparing : Sparing tr) (hw : w.Covered) (hc : w.sched.Holds c) :
    ∃ m, (c, m) ∈ w.stash := by
  obtain ⟨id, p, a, hp, ha⟩ := hc
  have hspawns : spawnCount tr ≤ 2 ^ 64 := by
    have hprocs := h.procs
    rw [maxProcesses] at hprocs
    rw [h.spawns]
    omega
  have hnumbered := Numbered.run h.run System.fresh_new hspawns hsparing
  have hlt := hnumbered.ids id p hp
  rw [h.spawns] at hlt
  have hid : pidAt id.val.toNat = id := congrArg ProcessId.mk UInt64.ofNat_toNat
  obtain ⟨pm, hpm⟩ := lookup hlt
  obtain ⟨-, q, hq, hmirror⟩ := h.tables _ pm hpm
  rw [hid] at hq
  obtain rfl : p = q := Option.some.inj (hp.symm.trans hq)
  rw [hmirror.toHeld.capability, Option.map_eq_some_iff] at ha
  obtain ⟨m, hm, rfl⟩ := ha
  obtain ⟨x, hx, rfl⟩ := hw pm (List.mem_of_getElem? hpm) a m hm
  exact ⟨x.2, (h.stashed x hx).1 ▸ hx⟩

theorem ever_held_in_stash (h : Mirrors tr v) (hv : v.Covered) (hrange : AllInRange ops v)
    (hsparing : Sparing (tr ++ history ops v)) (hw : audited ops v = .ok w) {k : ℕ} {vk : World}
    (hvk : audited (ops.take k) v = .ok vk) (hc : vk.sched.Holds c) : ∃ m, (c, m) ∈ w.stash := by
  induction ops generalizing tr v k with
  | nil =>
    rw [List.take_nil] at hvk
    cases hvk
    cases hw
    exact held_in_stash h hsparing.earlier hv hc
  | cons op ops ih =>
    cases k with
    | zero =>
      cases hvk
      obtain ⟨m, hm⟩ := held_in_stash h hsparing.earlier hv hc
      exact ⟨m, stash_grows hw _ hm⟩
    | succ k =>
      obtain ⟨v', hstep, hmirrors, hrest, htrace⟩ := audited_step h hrange.1 hsparing
      rw [htrace] at hsparing
      rw [hrest] at hw
      rw [List.take_succ_cons, audited_cons hstep hmirrors.sweep_ok] at hvk
      exact ih hmirrors ((execute_extends hstep).covered hv) ((allInRange_cons hstep ops).mp hrange).2
        hsparing hw hvk

end Runs

private theorem boot_covered : World.boot.Covered := by
  have hall : ∀ pm ∈ World.boot.procs, ∀ x ∈ pm.table.toList, x.2 ∈ World.boot.stash.map Prod.snd := by
    decide +kernel
  intro pm hpm a m ha
  obtain ⟨x, hx, hxm⟩ := List.mem_map.mp
    (hall pm hpm (a, m) (ExtTreeMap.mem_toList_iff_getElem?_eq_some.mpr ha))
  exact ⟨x, hx, hxm⟩

private theorem boot_held : ∀ x ∈ World.boot.stash, World.boot.sched.Holds x.1 := by
  have hall : ∀ x ∈ World.boot.stash, ((World.boot.sched.process (pidAt 0)).bind fun p =>
      p.handles.find? fun a => p.capability a = some x.1).isSome = true := by
    decide +kernel
  intro x hx
  obtain ⟨a, ha⟩ := Option.isSome_iff_exists.mp (hall x hx)
  obtain ⟨p, hp, hfind⟩ := Option.bind_eq_some_iff.mp ha
  have hget := List.find?_some hfind
  exact ⟨pidAt 0, p, a, hp, of_decide_eq_true hget⟩

/-- The stash is exactly what processes ever held: every audit of a run looks at each capability that
some process held after some step so far, and at no other. -/
theorem stash_iff_held (ops : List Op) (hrange : AllInRange ops World.boot) (hsparing : Sparing (runTrace ops))
    {w : World} (haudited : audited ops World.boot = .ok w) (c : Capability) :
    (∃ m, (c, m) ∈ w.stash) ↔ ∃ k wk, k ≤ ops.length ∧ audited (ops.take k) World.boot = .ok wk ∧
      wk.sched.Holds c := by
  constructor
  · rintro ⟨m, hm⟩
    rcases stash_held haudited _ hm with hboot | hlater
    · exact ⟨0, World.boot, Nat.zero_le _, rfl, boot_held _ hboot⟩
    · exact hlater
  · rintro ⟨k, wk, -, hwk, hheld⟩
    exact ever_held_in_stash boot_mirrors boot_covered hrange hsparing haudited hwk hheld

/-- The first capability of the region that is moved away stays in the stash. -/
theorem stash_iff_held_movedRegion : ∃ w, audited movedRegion World.boot = .ok w ∧
    ((∃ m, (⟨objectAt 3, .ALL, 0⟩, m) ∈ w.stash) ↔ ∃ k wk, k ≤ movedRegion.length ∧
      audited (movedRegion.take k) World.boot = .ok wk ∧ wk.sched.Holds ⟨objectAt 3, .ALL, 0⟩) := by
  obtain ⟨w, haudited⟩ := movedRegion_passes
  exact ⟨w, haudited, stash_iff_held movedRegion movedRegion_inRange movedRegion_sparing haudited _⟩

end Muaddib.Chaos
