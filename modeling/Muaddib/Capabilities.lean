import Muaddib.Rights

/-! # The kernel's capability table

`Kernel` keeps one epoch per existing object. A capability carries the epoch it was
minted in, and every use compares the two. A call on `&mut Kernel` is a function that
returns its result together with the table it leaves, also when the result is an error.
Counters have the width of the source and wrap as in a release build. -/
namespace Muaddib
open Std

/-- How a call ends without a value: with the `Err` it returns, or with a panic. -/
inductive Stop (ε : Type) where
  | err (error : ε)
  | panic (message : String)
  deriving DecidableEq, Repr

structure ObjectId where
  val : UInt64
  deriving DecidableEq, Repr

namespace ObjectId

instance : Ord ObjectId := ⟨fun a b => compare a.val b.val⟩

instance : TransOrd ObjectId := FiniteMaps.transOrd_of_comap val fun _ _ => rfl

instance : LawfulEqOrd ObjectId :=
  FiniteMaps.lawfulEqOrd_of_comap val (fun _ _ => rfl) fun _ _ => congrArg mk

end ObjectId

structure Capability where
  object : ObjectId
  rights : Rights
  epoch : UInt64
  deriving DecidableEq, Repr

inductive CapError where
  | unknownObject (object : ObjectId)
  | revoked (object : ObjectId)
  | insufficientRights (object : ObjectId) (held required : Rights)
  | cannotAmplify (object : ObjectId) (held requested : Rights)
  deriving DecidableEq, Repr

structure Kernel where
  nextId : UInt64
  epochs : ExtTreeMap ObjectId UInt64
  deriving DecidableEq

namespace Kernel

def new : Kernel := ⟨0, ∅⟩

def newObject (k : Kernel) (rights : Rights) : Capability × Kernel :=
  let object : ObjectId := ⟨k.nextId⟩
  (⟨object, rights, 0⟩, ⟨k.nextId + 1, k.epochs.insert object 0⟩)

def check (k : Kernel) (cap : Capability) (required : Rights) : Except CapError Unit :=
  match k.epochs[cap.object]? with
  | none => .error (.unknownObject cap.object)
  | some currentEpoch =>
    if currentEpoch ≠ cap.epoch then .error (.revoked cap.object)
    else if cap.rights.contains required then .ok ()
    else .error (.insufficientRights cap.object cap.rights required)

def revoke (k : Kernel) (cap : Capability) : Except (Stop CapError) Unit × Kernel :=
  match k.check cap .DESTROY with
  | .error e => (.error (.err e), k)
  | .ok () =>
    match k.epochs[cap.object]? with
    | none => (.error (.panic "check just confirmed the object exists"), k)
    | some epoch => (.ok (), { k with epochs := k.epochs.insert cap.object (epoch + 1) })

def reissue (k : Kernel) (cap : Capability) : Except (Stop CapError) Capability × Kernel :=
  match k.revoke cap with
  | (.error e, k) => (.error e, k)
  | (.ok (), k) =>
    match k.epochs[cap.object]? with
    | none => (.error (.panic "no entry found for key"), k)
    | some epoch => (.ok ⟨cap.object, cap.rights, epoch⟩, k)

def objectExists (k : Kernel) (object : ObjectId) : Bool := k.epochs.contains object

def derive (k : Kernel) (cap : Capability) (requested : Rights) : Except CapError Capability :=
  match k.check cap .GRANT with
  | .error e => .error e
  | .ok () =>
    if cap.rights.contains requested then .ok ⟨cap.object, requested, cap.epoch⟩
    else .error (.cannotAmplify cap.object cap.rights requested)

def destroyObject (k : Kernel) (cap : Capability) : Except CapError Unit × Kernel :=
  match k.check cap .DESTROY with
  | .error e => (.error e, k)
  | .ok () => (.ok (), { k with epochs := k.epochs.erase cap.object })

/-- `cap` was minted in the current epoch of an object that exists. -/
def Live (k : Kernel) (cap : Capability) : Prop := k.epochs[cap.object]? = some cap.epoch

instance (k : Kernel) (cap : Capability) : Decidable (k.Live cap) :=
  inferInstanceAs (Decidable (_ = _))

/-- The table after the epoch `epoch` of `object` has been left. -/
def bump (k : Kernel) (object : ObjectId) (epoch : UInt64) : Kernel :=
  { k with epochs := k.epochs.insert object (epoch + 1) }

/-- The table after `object` is gone. -/
def remove (k : Kernel) (object : ObjectId) : Kernel :=
  { k with epochs := k.epochs.erase object }

@[simp] theorem bump_nextId (k : Kernel) (o : ObjectId) (e : UInt64) :
    (k.bump o e).nextId = k.nextId := rfl

@[simp] theorem remove_nextId (k : Kernel) (o : ObjectId) : (k.remove o).nextId = k.nextId := rfl

theorem bump_epochs (k : Kernel) (o a : ObjectId) (e : UInt64) :
    (k.bump o e).epochs[a]? = if o = a then some (e + 1) else k.epochs[a]? :=
  FiniteMaps.getElem?_insert ..

theorem remove_epochs (k : Kernel) (o a : ObjectId) :
    (k.remove o).epochs[a]? = if o = a then none else k.epochs[a]? :=
  FiniteMaps.getElem?_erase ..

theorem newObject_epochs (k : Kernel) (r : Rights) (a : ObjectId) :
    (k.newObject r).2.epochs[a]? = if ⟨k.nextId⟩ = a then some 0 else k.epochs[a]? :=
  FiniteMaps.getElem?_insert ..

theorem check_eq_ok_iff {k : Kernel} {cap : Capability} {r : Rights} :
    k.check cap r = .ok () ↔ k.Live cap ∧ cap.rights.contains r = true := by
  unfold check Live
  cases h : k.epochs[cap.object]? with
  | none => simp
  | some e =>
    by_cases he : e = cap.epoch
    · by_cases hr : cap.rights.contains r = true <;> simp [he, hr]
    · simp [he]

theorem check_NONE {k : Kernel} {cap : Capability} : k.check cap .NONE = .ok () ↔ k.Live cap := by
  simp [check_eq_ok_iff]

theorem check_congr {k k' : Kernel} {cap : Capability}
    (h : k'.epochs[cap.object]? = k.epochs[cap.object]?) (r : Rights) :
    k'.check cap r = k.check cap r := by
  simp only [check, h]

theorem check_cases (k : Kernel) (cap : Capability) (r : Rights) :
    (k.check cap r = .ok () ∧ k.Live cap ∧ cap.rights.contains r = true) ∨
      ∃ e, k.check cap r = .error e := by
  cases h : k.check cap r with
  | ok u => exact Or.inl ⟨rfl, check_eq_ok_iff.mp h⟩
  | error e => exact Or.inr ⟨e, rfl⟩

theorem revoke_of_live {k : Kernel} {cap : Capability} (hl : k.Live cap)
    (hd : cap.rights.contains .DESTROY = true) :
    k.revoke cap = (.ok (), k.bump cap.object cap.epoch) := by
  have hc : k.check cap .DESTROY = .ok () := check_eq_ok_iff.mpr ⟨hl, hd⟩
  unfold Live at hl
  simp [revoke, hc, hl, bump]

theorem revoke_of_error {k : Kernel} {cap : Capability} {e : CapError}
    (h : k.check cap .DESTROY = .error e) : k.revoke cap = (.error (.err e), k) := by
  simp [revoke, h]

theorem reissue_of_live {k : Kernel} {cap : Capability} (hl : k.Live cap)
    (hd : cap.rights.contains .DESTROY = true) :
    k.reissue cap = (.ok ⟨cap.object, cap.rights, cap.epoch + 1⟩, k.bump cap.object cap.epoch) := by
  simp [reissue, revoke_of_live hl hd, bump_epochs]

theorem reissue_of_error {k : Kernel} {cap : Capability} {e : CapError}
    (h : k.check cap .DESTROY = .error e) : k.reissue cap = (.error (.err e), k) := by
  simp [reissue, revoke_of_error h]

theorem derive_eq_ok_iff {k : Kernel} {cap c : Capability} {r : Rights} :
    k.derive cap r = .ok c ↔ k.Live cap ∧ cap.rights.contains .GRANT = true ∧
      cap.rights.contains r = true ∧ c = ⟨cap.object, r, cap.epoch⟩ := by
  rcases k.check_cases cap .GRANT with ⟨hc, hl, hg⟩ | ⟨e, he⟩
  · by_cases hr : cap.rights.contains r = true
    · simp [derive, hc, hl, hg, hr, eq_comm]
    · simp [derive, hc, hr]
  · have hn : ¬(k.Live cap ∧ cap.rights.contains .GRANT = true) := by
      rw [← check_eq_ok_iff, he]; simp
    simp only [derive, he, reduceCtorEq, false_iff]
    exact fun h => hn ⟨h.1, h.2.1⟩

theorem destroyObject_of_live {k : Kernel} {cap : Capability} (hl : k.Live cap)
    (hd : cap.rights.contains .DESTROY = true) :
    k.destroyObject cap = (.ok (), k.remove cap.object) := by
  have hc : k.check cap .DESTROY = .ok () := check_eq_ok_iff.mpr ⟨hl, hd⟩
  simp [destroyObject, hc, remove]

theorem destroyObject_of_error {k : Kernel} {cap : Capability} {e : CapError}
    (h : k.check cap .DESTROY = .error e) : k.destroyObject cap = (.error e, k) := by
  simp [destroyObject, h]

end Kernel
end Muaddib
