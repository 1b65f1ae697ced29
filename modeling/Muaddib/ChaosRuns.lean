import Muaddib.ChaosAudits
import Muaddib.ChaosBoot

/-! # Runs of the harness

Every operation keeps the model in step, so every audit of a run passes, and the check at its end. -/
namespace Muaddib.Chaos
open LabelledRuns

/-- The operation names processes and channels that exist. What it allocates fits `isize`. -/
def Op.InRange (w : World) : Op → Prop
  | .newRegion p size => p < w.procs.length ∧ size < 2 ^ 63
  | .spawn p _ | .read p _ _ _ _ | .revoke p _ | .destroy p _ | .local p => p < w.procs.length
  | .send p channel _ | .receive p channel => p < w.procs.length ∧ channel < channelCount
  | .write p _ _ _ len _ => p < w.procs.length ∧ len < 2 ^ 63

instance Op.decidableInRange (w : World) : (op : Op) → Decidable (op.InRange w)
  | .newRegion p size => inferInstanceAs (Decidable (p < w.procs.length ∧ size < 2 ^ 63))
  | .spawn p _ | .read p _ _ _ _ | .revoke p _ | .destroy p _ | .local p =>
    inferInstanceAs (Decidable (p < w.procs.length))
  | .send p channel _ | .receive p channel =>
    inferInstanceAs (Decidable (p < w.procs.length ∧ channel < channelCount))
  | .write p _ _ _ len _ => inferInstanceAs (Decidable (p < w.procs.length ∧ len < 2 ^ 63))

section Steps
variable {tr : List SystemEntry} {w : World}

/-- One operation: it passes its own checks and leaves the model in step. -/
theorem execute_mirrors (h : Mirrors tr w) {op : Op} (hrange : op.InRange w)
    (hsparing : Sparing (tr ++ w.entries op)) :
    ∃ w', w.execute op = .ok w' ∧ Mirrors (tr ++ w.entries op) w' := by
  cases op with
  | newRegion p size => exact executeNewRegion_mirrors h hrange.1 hrange.2 hsparing
  | spawn p grants => exact executeSpawn_mirrors h hrange hsparing
  | send p channel grants => exact executeSend_mirrors h hrange.1 hrange.2 grants
  | receive p channel => exact executeReceive_mirrors h hrange.1 hrange.2 hsparing
  | read p pick regionsOnly offset len => exact executeRead_mirrors h hrange pick regionsOnly offset len
  | write p pick regionsOnly offset len byte =>
    exact executeWrite_mirrors h hrange.1 pick regionsOnly offset hrange.2 byte
  | revoke p pick => exact executeRevoke_mirrors h hrange pick
  | destroy p pick => exact executeDestroy_mirrors h hrange pick
  | «local» p => exact executeLocal_mirrors h hrange

end Steps

/-- The operations one after the other, with an audit after each. -/
def audited : List Op → World → Check World
  | [], w => .ok w
  | op :: ops, w => do
    let w ← w.execute op
    w.sweep
    audited ops w

/-- A whole run: the first world, the operations, and the check of causality. -/
def auditedRun (ops : List Op) : Check World := do
  let w ← World.new
  let w ← audited ops w
  w.checkCausality
  return w

def AllInRange : List Op → World → Prop
  | [], _ => True
  | op :: ops, w => op.InRange w ∧
    match w.execute op with
    | .ok w' => AllInRange ops w'
    | .error _ => True

instance decidableAllInRange : (ops : List Op) → (w : World) → Decidable (AllInRange ops w)
  | [], _ => .isTrue trivial
  | op :: ops, w => @instDecidableAnd _ _ inferInstance <|
    match w.execute op with
    | .ok w' => decidableAllInRange ops w'
    | .error _ => .isTrue trivial

def history : List Op → World → List SystemEntry
  | [], _ => []
  | op :: ops, w => w.entries op ++
    match w.execute op with
    | .ok w' => history ops w'
    | .error _ => []

def runTrace (ops : List Op) : List SystemEntry := bootTrace ++ history ops World.boot

section Sequences
variable {tr : List SystemEntry} {w w' : World} {op : Op} {ops : List Op}

theorem allInRange_cons (hstep : w.execute op = .ok w') (ops : List Op) :
    AllInRange (op :: ops) w ↔ op.InRange w ∧ AllInRange ops w' := by
  rw [AllInRange, hstep]

theorem history_cons (hstep : w.execute op = .ok w') (ops : List Op) :
    history (op :: ops) w = w.entries op ++ history ops w' := by
  rw [history, hstep]

theorem audited_step (h : Mirrors tr w) (hrange : op.InRange w)
    (hsparing : Sparing (tr ++ history (op :: ops) w)) :
    ∃ w', w.execute op = .ok w' ∧ Mirrors (tr ++ w.entries op) w' ∧
      audited (op :: ops) w = audited ops w' ∧
      tr ++ history (op :: ops) w = tr ++ w.entries op ++ history ops w' := by
  have hfirst : Sparing (tr ++ w.entries op) := by
    rw [history, ← List.append_assoc] at hsparing
    exact hsparing.earlier
  obtain ⟨w', hstep, hmirrors⟩ := execute_mirrors h hrange hfirst
  refine ⟨w', hstep, hmirrors, ?_, ?_⟩
  · rw [audited, hstep, ok_bind, hmirrors.sweep_ok]
    rfl
  · rw [history_cons hstep, List.append_assoc]

/-- Operations in range pass every check and every audit. -/
theorem audited_mirrors (h : Mirrors tr w) (hrange : AllInRange ops w)
    (hsparing : Sparing (tr ++ history ops w)) :
    ∃ w', audited ops w = .ok w' ∧ Mirrors (tr ++ history ops w) w' := by
  induction ops generalizing tr w with
  | nil =>
    refine ⟨w, rfl, ?_⟩
    rwa [history, List.append_nil]
  | cons op ops ih =>
    obtain ⟨w', hstep, hmirrors, haudited, htrace⟩ := audited_step h hrange.1 hsparing
    rw [htrace] at hsparing ⊢
    rw [haudited]
    exact ih hmirrors ((allInRange_cons hstep ops).mp hrange).2 hsparing

end Sequences
end Muaddib.Chaos
