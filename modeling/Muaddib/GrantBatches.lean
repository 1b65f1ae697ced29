import Muaddib.ProcessTables

/-! # Grant batches: resolving and applying them

A batch leaves a table through two functions. `resolveGrants` validates every entry
against the source's table and the kernel and changes neither. `applyGrants` performs
the removals and the reissues of a batch that was resolved. -/
namespace Muaddib

inductive Grant where
  | transfer (handle : Handle)
  | derive (handle : Handle) (rights : Rights)
  | move (handle : Handle)
  deriving DecidableEq, Repr

inductive GrantError where
  | unknownHandle
  | duplicateTransfer (handle : Handle)
  | moveConflict (object : ObjectId)
  | capability (error : CapError)
  deriving DecidableEq, Repr

def Grant.handle : Grant → Handle
  | .transfer h | .derive h _ | .move h => h

/-- `if let Grant::Transfer(h) | Grant::Move(h)`: the handle a grant removes from the table. -/
def Grant.leaving : Grant → Option Handle
  | .transfer h | .move h => some h
  | .derive _ _ => none

def Grant.isMove : Grant → Bool
  | .move _ => true
  | _ => false

def recordTransfer (transferred : List Handle) (g : Grant) : Except GrantError (List Handle) :=
  match g.leaving with
  | none => .ok transferred
  | some h => if h ∈ transferred then .error (.duplicateTransfer h) else .ok (h :: transferred)

def resolveGrant (kernel : Kernel) (source : Process) (g : Grant) : Except GrantError Capability :=
  match source.capability g.handle with
  | none => .error .unknownHandle
  | some held =>
    match g with
    | .transfer _ => .ok held
    | .derive _ rights => (kernel.derive held rights).mapError .capability
    | .move _ => match kernel.check held .DESTROY with
      | .error e => .error (.capability e)
      | .ok () => .ok held

/-- The first loop of `resolve_grants`. -/
def resolveEntries (kernel : Kernel) (source : Process) :
    List Handle → List Grant → Except GrantError (List Capability)
  | _, [] => .ok []
  | transferred, g :: gs =>
    match recordTransfer transferred g with
    | .error e => .error e
    | .ok transferred =>
      match resolveGrant kernel source g with
      | .error e => .error e
      | .ok cap => (resolveEntries kernel source transferred gs).map (cap :: ·)

/-- Whether some entry other than the `i`-th resolved to a capability for `object`. -/
def conflictsWith (resolved : List Capability) (i : ℕ) (object : ObjectId) : Bool :=
  resolved.zipIdx.any fun (cap, j) => j != i && cap.object == object

/-- The second loop of `resolve_grants`; `resolved` has one entry for each grant. -/
def findMoveConflict (grants : List Grant) (resolved : List Capability) : Option ObjectId :=
  (grants.zip resolved).zipIdx.findSome? fun ((g, cap), i) =>
    if g.isMove && conflictsWith resolved i cap.object then some cap.object else none

def resolveGrants (kernel : Kernel) (source : Process) (grants : List Grant) :
    Except GrantError (List Capability) :=
  match resolveEntries kernel source [] grants with
  | .error e => .error e
  | .ok resolved =>
    match findMoveConflict grants resolved with
    | some object => .error (.moveConflict object)
    | none => .ok resolved

/-- Performs the side effects of a resolved batch, in order. The error is the panic of the
`expect` on a reissue. -/
def applyGrants (kernel : Kernel) (source : Process) :
    List Grant → List Capability → Except String (List Capability) × Kernel × Process
  | g :: gs, cap :: caps =>
    match g with
    | .transfer h =>
      let (rest, state) := applyGrants kernel (source.take h).2 gs caps
      (rest.map (cap :: ·), state)
    | .move h =>
      match kernel.reissue cap with
      | (.error _, kernel) =>
        (.error "resolve_grants checked this capability is live and holds DESTROY",
          kernel, (source.take h).2)
      | (.ok fresh, kernel) =>
        let (rest, state) := applyGrants kernel (source.take h).2 gs caps
        (rest.map (fresh :: ·), state)
    | .derive _ _ =>
      let (rest, state) := applyGrants kernel source gs caps
      (rest.map (cap :: ·), state)
  | _, resolved => (.ok resolved, kernel, source)

def leavingHandles (batch : List (Grant × Capability)) : List Handle :=
  (batch.map Prod.fst).filterMap Grant.leaving

theorem leavingHandles_cons (x : Grant × Capability) (batch : List (Grant × Capability)) :
    leavingHandles (x :: batch) = x.1.leaving.toList ++ leavingHandles batch := by
  cases hg : x.1.leaving <;> simp [leavingHandles, hg]

/-- `batch` is a batch that `resolveGrants` accepts, with its resolved capabilities. -/
structure Resolved (kernel : Kernel) (source : Process) (batch : List (Grant × Capability)) :
    Prop where
  entries : ∀ x ∈ batch, resolveGrant kernel source x.1 = .ok x.2
  leaving : (leavingHandles batch).Nodup
  apart : batch.Pairwise fun x y => x.1.isMove || y.1.isMove → x.2.object ≠ y.2.object

def deliver (x : Grant × Capability) : Capability :=
  if x.1.isMove then { x.2 with epoch := x.2.epoch + 1 } else x.2

/-- The kernel after the reissue of one entry, if it is a move. -/
def moveObject (kernel : Kernel) (x : Grant × Capability) : Kernel :=
  if x.1.isMove then kernel.bump x.2.object x.2.epoch else kernel

def moveObjects (kernel : Kernel) (batch : List (Grant × Capability)) : Kernel :=
  batch.foldl moveObject kernel

def Process.takeAll (p : Process) (handles : List Handle) : Process :=
  handles.foldl (fun p h => (p.take h).2) p

@[simp] theorem Process.takeAll_id (p : Process) (hs : List Handle) : (p.takeAll hs).id = p.id := by
  induction hs generalizing p with
  | nil => rfl
  | cons h hs ih => exact ih (p.take h).2

@[simp] theorem Process.takeAll_clock (p : Process) (hs : List Handle) :
    (p.takeAll hs).clock = p.clock := by
  induction hs generalizing p with
  | nil => rfl
  | cons h hs ih => exact ih (p.take h).2

@[simp] theorem Process.takeAll_nextHandle (p : Process) (hs : List Handle) :
    (p.takeAll hs).nextHandle = p.nextHandle := by
  induction hs generalizing p with
  | nil => rfl
  | cons h hs ih => exact ih (p.take h).2

theorem Process.capability_takeAll (p : Process) (hs : List Handle) (h : Handle) :
    (p.takeAll hs).capability h = if h ∈ hs then none else p.capability h := by
  induction hs generalizing p with
  | nil => simp [takeAll]
  | cons a hs ih =>
    change ((p.take a).2.takeAll hs).capability h = _
    rw [ih, Process.capability_take]
    by_cases ha : a = h
    · subst a; simp
    · simp [ha, Ne.symm ha]

theorem resolveGrant_transfer_iff {k : Kernel} {p : Process} {h : Handle} {c : Capability} :
    resolveGrant k p (.transfer h) = .ok c ↔ p.capability h = some c := by
  cases hp : p.capability h <;> simp [resolveGrant, Grant.handle, hp]

theorem resolveGrant_derive_iff {k : Kernel} {p : Process} {h : Handle} {r : Rights}
    {c : Capability} : resolveGrant k p (.derive h r) = .ok c ↔
      ∃ held, p.capability h = some held ∧ k.derive held r = .ok c := by
  cases hp : p.capability h with
  | none => simp [resolveGrant, Grant.handle, hp]
  | some held => cases hd : k.derive held r <;> simp [resolveGrant, Grant.handle, hp, hd, Except.mapError]

theorem resolveGrant_move_iff {k : Kernel} {p : Process} {h : Handle} {c : Capability} :
    resolveGrant k p (.move h) = .ok c ↔
      p.capability h = some c ∧ k.Live c ∧ c.rights.contains .DESTROY = true := by
  cases hp : p.capability h with
  | none => simp [resolveGrant, Grant.handle, hp]
  | some held =>
    rcases k.check_cases held .DESTROY with ⟨hc, hl, hd⟩ | ⟨e, he⟩
    · simp only [resolveGrant, Grant.handle, hp, hc, Except.ok.injEq, Option.some.injEq]
      constructor
      · rintro rfl
        exact ⟨rfl, hl, hd⟩
      · exact And.left
    · have hn : ¬(k.Live held ∧ held.rights.contains .DESTROY = true) := by
        rw [← Kernel.check_eq_ok_iff, he]; simp
      simp only [resolveGrant, Grant.handle, hp, he, reduceCtorEq, Option.some.injEq, false_iff]
      rintro ⟨rfl, h⟩
      exact hn h

/-- The first loop accepts exactly the batches whose entries resolve one by one and whose
leaving handles are new each time. -/
theorem resolveEntries_eq_ok_iff {k : Kernel} {p : Process} {gs : List Grant}
    {transferred : List Handle} {caps : List Capability} :
    resolveEntries k p transferred gs = .ok caps ↔
      List.Forall₂ (fun g c => resolveGrant k p g = .ok c) gs caps ∧
      (gs.filterMap Grant.leaving).Nodup ∧ ∀ h ∈ gs.filterMap Grant.leaving, h ∉ transferred := by
  induction gs generalizing transferred caps with
  | nil => simp [resolveEntries, eq_comm]
  | cons g gs ih =>
    have step (seen : List Handle) : (∃ cap rest, resolveGrant k p g = .ok cap ∧
        resolveEntries k p seen gs = .ok rest ∧ caps = cap :: rest) ↔
        List.Forall₂ (fun g c => resolveGrant k p g = .ok c) (g :: gs) caps ∧
          (gs.filterMap Grant.leaving).Nodup ∧ ∀ h ∈ gs.filterMap Grant.leaving, h ∉ seen := by
      simp only [ih, List.forall₂_cons_left_iff]
      constructor
      · rintro ⟨cap, rest, hc, ⟨hf, hn⟩, rfl⟩
        exact ⟨⟨cap, rest, hc, hf, rfl⟩, hn⟩
      · rintro ⟨⟨cap, rest, hc, hf, rfl⟩, hn⟩
        exact ⟨cap, rest, hc, ⟨hf, hn⟩, rfl⟩
    have unfold_entry (seen : List Handle) (hs : recordTransfer transferred g = .ok seen) :
        resolveEntries k p transferred (g :: gs) = .ok caps ↔
          ∃ cap rest, resolveGrant k p g = .ok cap ∧
            resolveEntries k p seen gs = .ok rest ∧ caps = cap :: rest := by
      simp only [resolveEntries, hs]
      cases resolveGrant k p g with
      | error e => simp
      | ok cap => cases resolveEntries k p seen gs <;> simp [Except.map, eq_comm]
    cases hg : g.leaving with
    | none =>
      have hs : recordTransfer transferred g = .ok transferred := by simp [recordTransfer, hg]
      rw [unfold_entry _ hs, step, List.filterMap_cons_none hg]
    | some h =>
      by_cases hm : h ∈ transferred
      · have hs : recordTransfer transferred g = .error (.duplicateTransfer h) := by
          simp [recordTransfer, hg, hm]
        simp [resolveEntries, hs, List.filterMap_cons_some hg, hm]
      · have hs : recordTransfer transferred g = .ok (h :: transferred) := by
          simp [recordTransfer, hg, hm]
        rw [unfold_entry _ hs, step, List.filterMap_cons_some hg]
        simp only [List.nodup_cons, List.mem_cons, forall_eq_or_imp, not_or]
        constructor
        · rintro ⟨hf, hn, hd⟩
          exact ⟨hf, ⟨fun hh => (hd h hh).1 rfl, hn⟩, hm, fun a ha => (hd a ha).2⟩
        · rintro ⟨hf, ⟨hh, hn⟩, _, hd⟩
          exact ⟨hf, hn, fun a ha => ⟨fun he => hh (he ▸ ha), hd a ha⟩⟩

theorem conflictsWith_eq_false_iff {resolved : List Capability} {i : ℕ} {o : ObjectId} :
    conflictsWith resolved i o = false ↔
      ∀ j c, resolved[j]? = some c → j ≠ i → c.object ≠ o := by
  simp only [conflictsWith, List.any_eq_false, Prod.forall, List.mem_zipIdx_iff_getElem?]
  constructor
  · intro h j c hc hj ho
    exact h c j hc (by simp [hj, ho])
  · intro h c j hc
    have hn := h j c hc
    simpa using hn

/-- The second loop finds nothing exactly when no moved object is named by another entry. -/
theorem findMoveConflict_eq_none_iff (batch : List (Grant × Capability)) :
    findMoveConflict (batch.map Prod.fst) (batch.map Prod.snd) = none ↔
      batch.Pairwise fun x y => x.1.isMove || y.1.isMove → x.2.object ≠ y.2.object := by
  have hz : (batch.map Prod.fst).zip (batch.map Prod.snd) = batch := by
    induction batch with
    | nil => rfl
    | cons x batch ih => simp [ih]
  have hscan : findMoveConflict (batch.map Prod.fst) (batch.map Prod.snd) = none ↔
      ∀ (i : ℕ) (x : Grant × Capability), batch[i]? = some x → x.1.isMove = true →
        ∀ (j : ℕ) (y : Grant × Capability), batch[j]? = some y → j ≠ i → y.2.object ≠ x.2.object := by
    simp only [findMoveConflict, hz, List.findSome?_eq_none_iff]
    constructor
    · intro h i x hx hm j y hy hj
      have hc := h (x, i) (List.mem_zipIdx_iff_getElem?.mpr hx)
      dsimp only at hc
      rw [hm, Bool.true_and] at hc
      have hf : conflictsWith (batch.map Prod.snd) i x.2.object = false := by
        by_contra hf
        simp [hf] at hc
      exact conflictsWith_eq_false_iff.mp hf j y.2 (by simp [hy]) hj
    · rintro h ⟨⟨g, c⟩, i⟩ hx
      rw [List.mem_zipIdx_iff_getElem?] at hx
      by_cases hm : g.isMove = true
      · have hf : conflictsWith (batch.map Prod.snd) i c.object = false := by
          rw [conflictsWith_eq_false_iff]
          intro j c' hc' hj
          rw [List.getElem?_map, Option.map_eq_some_iff] at hc'
          obtain ⟨y, hy, rfl⟩ := hc'
          exact h i (g, c) hx hm j y hy hj
        simp [hf]
      · simp [hm]
  rw [hscan, List.pairwise_iff_getElem]
  constructor
  · intro h i j hi hj hij hm
    rcases (Bool.or_eq_true ..).mp hm with hm | hm
    · exact (h i _ (List.getElem?_eq_getElem hi) hm j _ (List.getElem?_eq_getElem hj) (by omega)).symm
    · exact h j _ (List.getElem?_eq_getElem hj) hm i _ (List.getElem?_eq_getElem hi) (by omega)
  · intro h i x hx hm j y hy hij
    obtain ⟨hi, rfl⟩ := List.getElem?_eq_some_iff.mp hx
    obtain ⟨hj, rfl⟩ := List.getElem?_eq_some_iff.mp hy
    rcases Nat.lt_or_gt_of_ne hij with hlt | hlt
    · exact h j i hj hi hlt (by simp [hm])
    · exact (h i j hi hj hlt (by simp [hm])).symm

/-- `resolveGrants` succeeds on the batches that are `Resolved`, and on no others. -/
theorem resolveGrants_eq_ok_iff {k : Kernel} {p : Process} {gs : List Grant}
    {caps : List Capability} : resolveGrants k p gs = .ok caps ↔
      ∃ batch, Resolved k p batch ∧ gs = batch.map Prod.fst ∧ caps = batch.map Prod.snd := by
  constructor
  · intro h
    unfold resolveGrants at h
    cases hr : resolveEntries k p [] gs with
    | error e => simp [hr] at h
    | ok resolved =>
      obtain ⟨hf, hn, -⟩ := resolveEntries_eq_ok_iff.mp hr
      have hlen := hf.length_eq
      have hfst : (gs.zip resolved).map Prod.fst = gs := List.map_fst_zip hlen.le
      have hsnd : (gs.zip resolved).map Prod.snd = resolved := List.map_snd_zip hlen.ge
      cases hc : findMoveConflict gs resolved with
      | some o => simp [hr, hc] at h
      | none =>
        have hcaps : resolved = caps := by simpa [hr, hc] using h
        subst hcaps
        refine ⟨gs.zip resolved, ⟨?_, ?_, ?_⟩, hfst.symm, hsnd.symm⟩
        · intro x hx
          exact List.forall₂_zip hf hx
        · rwa [leavingHandles, hfst]
        · rwa [← findMoveConflict_eq_none_iff, hfst, hsnd]
  · rintro ⟨batch, hb, rfl, rfl⟩
    have hr : resolveEntries k p [] (batch.map Prod.fst) = .ok (batch.map Prod.snd) := by
      rw [resolveEntries_eq_ok_iff]
      refine ⟨?_, hb.leaving, by simp⟩
      rw [List.forall₂_map_left_iff, List.forall₂_map_right_iff, List.forall₂_same]
      exact hb.entries
    simp [resolveGrants, hr, (findMoveConflict_eq_none_iff batch).mpr hb.apart]

theorem Resolved.tail {k : Kernel} {p : Process} {x : Grant × Capability}
    {batch : List (Grant × Capability)} (h : Resolved k p (x :: batch)) : Resolved k p batch where
  entries y hy := h.entries y (List.mem_cons_of_mem x hy)
  leaving := by
    have hn := h.leaving
    rw [leavingHandles_cons] at hn
    exact hn.of_append_right
  apart := (List.pairwise_cons.mp h.apart).2

/-- Every moved entry is live and may be destroyed, and no two moves share an object. -/
def Movable (k : Kernel) (batch : List (Grant × Capability)) : Prop :=
  (∀ x ∈ batch, x.1.isMove = true → k.Live x.2 ∧ x.2.rights.contains .DESTROY = true) ∧
    batch.Pairwise fun x y => x.1.isMove || y.1.isMove → x.2.object ≠ y.2.object

theorem Resolved.movable {k : Kernel} {p : Process} {batch : List (Grant × Capability)}
    (h : Resolved k p batch) : Movable k batch := by
  refine ⟨?_, h.apart⟩
  rintro ⟨g, c⟩ hx hm
  have hr := h.entries _ hx
  cases g with
  | transfer _ => simp [Grant.isMove] at hm
  | derive _ _ => simp [Grant.isMove] at hm
  | move a => exact (resolveGrant_move_iff.mp hr).2

theorem moveObject_epochs_of_ne {k : Kernel} {x : Grant × Capability} {o : ObjectId}
    (h : x.1.isMove = true → x.2.object ≠ o) : (moveObject k x).epochs[o]? = k.epochs[o]? := by
  unfold moveObject
  split
  · next hm => rw [Kernel.bump_epochs, if_neg (h hm)]
  · rfl

/-- The bump of one object leaves every other move of the batch as it was. -/
theorem Movable.moveObject {k : Kernel} {x : Grant × Capability}
    {batch : List (Grant × Capability)} (h : Movable k (x :: batch)) :
    Movable (moveObject k x) batch := by
  obtain ⟨hlive, hapart⟩ := h
  obtain ⟨hhead, htail⟩ := List.pairwise_cons.mp hapart
  refine ⟨fun y hy hm => ?_, htail⟩
  obtain ⟨hl, hd⟩ := hlive y (List.mem_cons_of_mem _ hy) hm
  refine ⟨?_, hd⟩
  unfold Kernel.Live at hl ⊢
  rwa [moveObject_epochs_of_ne fun _ => hhead y hy (by simp [hm])]

theorem applyGrants_of_movable {k : Kernel} {p : Process} {batch : List (Grant × Capability)}
    (h : Movable k batch) :
    applyGrants k p (batch.map Prod.fst) (batch.map Prod.snd) =
      (.ok (batch.map deliver), moveObjects k batch,
        p.takeAll (leavingHandles batch)) := by
  induction batch generalizing k p with
  | nil => simp [applyGrants, moveObjects, Process.takeAll, leavingHandles]
  | cons x batch ih =>
    obtain ⟨g, c⟩ := x
    cases g with
    | transfer a =>
      have hrest : Movable k batch := h.moveObject
      simp [applyGrants, ih hrest, Except.map, deliver, Grant.isMove, moveObjects, moveObject,
        Process.takeAll, leavingHandles_cons, Grant.leaving]
    | derive a r =>
      have hrest : Movable k batch := h.moveObject
      simp [applyGrants, ih hrest, Except.map, deliver, Grant.isMove, moveObjects, moveObject,
        leavingHandles_cons, Grant.leaving]
    | move a =>
      obtain ⟨hl, hd⟩ := h.1 _ List.mem_cons_self rfl
      have hrest : Movable (k.bump c.object c.epoch) batch := h.moveObject
      simp [applyGrants, Kernel.reissue_of_live hl hd, ih hrest, Except.map, deliver,
        Grant.isMove, moveObjects, moveObject, Process.takeAll, leavingHandles_cons, Grant.leaving]

/-- The `expect` in `applyGrants` is never reached after a successful `resolveGrants`. -/
theorem applyGrants_of_resolved {k : Kernel} {p : Process} {batch : List (Grant × Capability)}
    (h : Resolved k p batch) :
    applyGrants k p (batch.map Prod.fst) (batch.map Prod.snd) =
      (.ok (batch.map deliver), moveObjects k batch,
        p.takeAll (leavingHandles batch)) :=
  applyGrants_of_movable h.movable

@[simp] theorem moveObject_nextId (k : Kernel) (x : Grant × Capability) :
    (moveObject k x).nextId = k.nextId := by
  unfold moveObject
  split <;> rfl

@[simp] theorem moveObjects_nextId (k : Kernel) (batch : List (Grant × Capability)) :
    (moveObjects k batch).nextId = k.nextId := by
  induction batch generalizing k with
  | nil => rfl
  | cons x batch ih => exact (ih (moveObject k x)).trans (moveObject_nextId k x)

theorem moveObjects_epochs_of_notMem {k : Kernel} {batch : List (Grant × Capability)} {o : ObjectId}
    (h : ∀ x ∈ batch, x.1.isMove = true → x.2.object ≠ o) :
    (moveObjects k batch).epochs[o]? = k.epochs[o]? := by
  induction batch generalizing k with
  | nil => rfl
  | cons x batch ih =>
    have hrest := ih (k := moveObject k x) fun y hy => h y (List.mem_cons_of_mem x hy)
    exact hrest.trans (moveObject_epochs_of_ne (h x List.mem_cons_self))

/-- A moved object is left at the epoch after the moved capability's. -/
theorem moveObjects_epochs_of_mem {k : Kernel} {batch : List (Grant × Capability)}
    (h : Movable k batch) {x : Grant × Capability} (hx : x ∈ batch) (hm : x.1.isMove = true) :
    (moveObjects k batch).epochs[x.2.object]? = some (x.2.epoch + 1) := by
  induction batch generalizing k with
  | nil => simp at hx
  | cons y batch ih =>
    rcases List.mem_cons.mp hx with rfl | hx
    · have hhead := (List.pairwise_cons.mp h.2).1
      have hrest : (moveObjects (moveObject k x) batch).epochs[x.2.object]? =
          (moveObject k x).epochs[x.2.object]? :=
        moveObjects_epochs_of_notMem fun z hz _ => (hhead z hz (by simp [hm])).symm
      refine hrest.trans ?_
      rw [moveObject, if_pos hm, Kernel.bump_epochs, if_pos rfl]
    · exact ih h.moveObject hx

/-- The source process after a batch has left its table and the send is recorded. -/
def Process.depart (p : Process) (batch : List (Grant × Capability)) : Process :=
  (p.takeAll (leavingHandles batch)).recordSend.2

@[simp] theorem Process.depart_nextHandle (p : Process) (batch : List (Grant × Capability)) :
    (p.depart batch).nextHandle = p.nextHandle := p.takeAll_nextHandle _

theorem Process.depart_clock (p : Process) (batch : List (Grant × Capability)) :
    (p.depart batch).clock = p.clock.sendEvent.2 := by
  change (p.takeAll _).clock.sendEvent.2 = _
  rw [Process.takeAll_clock]

theorem Process.recordSend_takeAll (p : Process) (hs : List Handle) :
    (p.takeAll hs).recordSend.1 = p.clock.sendEvent.1 := by
  change (p.takeAll hs).clock.sendEvent.1 = _
  rw [Process.takeAll_clock]

theorem Process.capability_depart (p : Process) (batch : List (Grant × Capability)) (h : Handle) :
    (p.depart batch).capability h = if h ∈ leavingHandles batch then none else p.capability h :=
  p.capability_takeAll _ h

end Muaddib
