import Muaddib.GrantBatches

/-! # The order of a grant batch

Which batches `resolve_grants` accepts, and what `apply_grants` makes of them, said entry by
entry and without an order. Every permutation of a batch then ends the same way. -/
namespace Muaddib

/-- The authority an entry needs over the capability its handle names. -/
def Grant.Allowed (k : Kernel) (c : Capability) : Grant → Prop
  | .transfer _ => True
  | .derive _ r => k.Live c ∧ c.rights.contains .GRANT = true ∧ c.rights.contains r = true
  | .move _ => k.Live c ∧ c.rights.contains .DESTROY = true

def Process.named (p : Process) (g : Grant) : Option ObjectId :=
  (p.capability g.handle).map Capability.object

def Process.delivers (p : Process) (g : Grant) : Option Capability :=
  (p.capability g.handle).map fun c => match g with
    | .transfer _ => c
    | .derive _ rights => { c with rights }
    | .move _ => { c with epoch := c.epoch + 1 }

/-- The batch moves a capability of `p` for the object `o`. -/
def Process.Moves (p : Process) (grants : List Grant) (o : ObjectId) : Prop :=
  ∃ h c, .move h ∈ grants ∧ p.capability h = some c ∧ c.object = o

/-- Every entry names a capability in the table and has the authority it needs, no handle leaves
twice, and no object is moved and named by another entry too. -/
structure Acceptable (k : Kernel) (p : Process) (grants : List Grant) : Prop where
  entries : ∀ g ∈ grants, ∃ c, p.capability g.handle = some c ∧ g.Allowed k c
  leaving : (grants.filterMap Grant.leaving).Nodup
  apart : grants.Pairwise fun g g' => g.isMove || g'.isMove → p.named g ≠ p.named g'

/-- The batch has been applied: each entry delivered its own, exactly the transferred and moved
handles left the table, and exactly the moved objects are one epoch on. -/
structure Applied (k : Kernel) (p : Process) (grants : List Grant) (delivered : List Capability)
    (k' : Kernel) (p' : Process) : Prop where
  delivered : delivered.map some = grants.map p.delivers
  table (h : Handle) : p'.capability h =
    if h ∈ grants.filterMap Grant.leaving then none else p.capability h
  process : p' = { p with capabilities := p'.capabilities }
  moved (o : ObjectId) (h : p.Moves grants o) : k'.epochs[o]? = (k.epochs[o]?).map (· + 1)
  unmoved (o : ObjectId) (h : ¬p.Moves grants o) : k'.epochs[o]? = k.epochs[o]?
  nextId : k'.nextId = k.nextId

section Entries
variable {k : Kernel} {p : Process} {g : Grant} {c : Capability}

theorem exists_resolveGrant_iff : (∃ c, resolveGrant k p g = .ok c) ↔
    ∃ c, p.capability g.handle = some c ∧ g.Allowed k c := by
  cases g with
  | transfer h => simp [resolveGrant_transfer_iff, Grant.Allowed, Grant.handle]
  | derive h r =>
    simp only [resolveGrant_derive_iff, Kernel.derive_eq_ok_iff]
    constructor
    · rintro ⟨_, held, hp, hl, hg, hr, -⟩
      exact ⟨held, hp, hl, hg, hr⟩
    · rintro ⟨held, hp, hl, hg, hr⟩
      exact ⟨_, held, hp, hl, hg, hr, rfl⟩
  | move h => simp [resolveGrant_move_iff, Grant.Allowed, Grant.handle]

/-- A resolved entry is about the object its handle names, and delivers what the table says. -/
theorem resolveGrant_named (h : resolveGrant k p g = .ok c) :
    p.named g = some c.object ∧ p.delivers g = some (deliver (g, c)) := by
  cases g with
  | transfer a =>
    have hp := resolveGrant_transfer_iff.mp h
    simp [Process.named, Process.delivers, Grant.handle, hp, deliver, Grant.isMove]
  | derive a r =>
    obtain ⟨held, hp, hd⟩ := resolveGrant_derive_iff.mp h
    obtain ⟨-, -, -, rfl⟩ := Kernel.derive_eq_ok_iff.mp hd
    simp [Process.named, Process.delivers, Grant.handle, hp, deliver, Grant.isMove]
  | move a =>
    have hp := (resolveGrant_move_iff.mp h).1
    simp [Process.named, Process.delivers, Grant.handle, hp, deliver, Grant.isMove]

end Entries

section Batches
variable {k : Kernel} {p : Process}

theorem exists_resolvedEntries {gs : List Grant} (h : ∀ g ∈ gs, ∃ c, resolveGrant k p g = .ok c) :
    ∃ batch : List (Grant × Capability), batch.map Prod.fst = gs ∧
      ∀ x ∈ batch, resolveGrant k p x.1 = .ok x.2 := by
  induction gs with
  | nil => exact ⟨[], rfl, by simp⟩
  | cons g gs ih =>
    obtain ⟨c, hc⟩ := h g List.mem_cons_self
    obtain ⟨batch, hfst, hbatch⟩ := ih fun g' hg' => h g' (List.mem_cons_of_mem g hg')
    refine ⟨(g, c) :: batch, by rw [List.map_cons, hfst], ?_⟩
    intro x hx
    rcases List.mem_cons.mp hx with rfl | hx
    · exact hc
    · exact hbatch x hx

/-- Apart as capabilities resolved, or as objects named: the same. -/
theorem pairwise_named_iff {batch : List (Grant × Capability)}
    (h : ∀ x ∈ batch, resolveGrant k p x.1 = .ok x.2) :
    (batch.map Prod.fst).Pairwise
      (fun g g' => g.isMove || g'.isMove → p.named g ≠ p.named g') ↔
    batch.Pairwise fun x y => x.1.isMove || y.1.isMove → x.2.object ≠ y.2.object := by
  rw [List.pairwise_map]
  apply List.Pairwise.iff_of_mem
  intro x y hx hy
  rw [(resolveGrant_named (h x hx)).1, (resolveGrant_named (h y hy)).1, ne_eq, Option.some.injEq]

theorem Resolved.acceptable {batch : List (Grant × Capability)} (h : Resolved k p batch) :
    Acceptable k p (batch.map Prod.fst) where
  entries g hg := by
    obtain ⟨x, hx, rfl⟩ := List.mem_map.mp hg
    exact exists_resolveGrant_iff.mp ⟨x.2, h.entries x hx⟩
  leaving := h.leaving
  apart := (pairwise_named_iff h.entries).mpr h.apart

theorem Acceptable.resolved {gs : List Grant} (h : Acceptable k p gs) :
    ∃ batch, Resolved k p batch ∧ batch.map Prod.fst = gs := by
  obtain ⟨batch, rfl, hentries⟩ := exists_resolvedEntries fun g hg =>
    exists_resolveGrant_iff.mpr (h.entries g hg)
  exact ⟨batch, ⟨hentries, h.leaving, (pairwise_named_iff hentries).mp h.apart⟩, rfl⟩

theorem resolveGrants_accepts_iff {gs : List Grant} :
    (∃ caps, resolveGrants k p gs = .ok caps) ↔ Acceptable k p gs := by
  simp only [resolveGrants_eq_ok_iff]
  constructor
  · intro ⟨caps, batch, hb, hgs, _⟩
    rw [hgs]
    exact hb.acceptable
  · intro h
    obtain ⟨batch, hb, hgs⟩ := h.resolved
    exact ⟨_, batch, hb, hgs.symm, rfl⟩

theorem Acceptable.perm {gs gs' : List Grant} (h : Acceptable k p gs) (hp : gs.Perm gs') :
    Acceptable k p gs' where
  entries g hg := h.entries g (hp.mem_iff.mpr hg)
  leaving := (hp.filterMap _).nodup h.leaving
  apart := (hp.pairwise_iff fun hab hm => (hab (by rwa [Bool.or_comm])).symm).mp h.apart

/-- A resolved batch moves an object exactly when one of its entries is a move of it. -/
theorem Resolved.moves_iff {batch : List (Grant × Capability)} (h : Resolved k p batch)
    (o : ObjectId) :
    p.Moves (batch.map Prod.fst) o ↔ ∃ x ∈ batch, x.1.isMove = true ∧ x.2.object = o := by
  constructor
  · intro ⟨a, c, ha, hc, ho⟩
    obtain ⟨⟨g, d⟩, hx, rfl⟩ := List.mem_map.mp ha
    have hd := (resolveGrant_move_iff.mp (h.entries _ hx)).1
    obtain rfl := Option.some.inj (hc.symm.trans hd)
    exact ⟨_, hx, rfl, ho⟩
  · intro ⟨⟨g, c⟩, hx, hm, ho⟩
    cases g with
    | transfer _ => cases hm
    | derive _ _ => cases hm
    | move a =>
      exact ⟨a, c, List.mem_map.mpr ⟨_, hx, rfl⟩, (resolveGrant_move_iff.mp (h.entries _ hx)).1, ho⟩

theorem Process.takeAll_eq (p : Process) (hs : List Handle) :
    p.takeAll hs = { p with capabilities := (p.takeAll hs).capabilities } := by
  induction hs generalizing p with
  | nil => rfl
  | cons h hs ih => exact ih (p.take h).2

theorem Resolved.applied {batch : List (Grant × Capability)} (h : Resolved k p batch) :
    Applied k p (batch.map Prod.fst) (batch.map deliver) (moveObjects k batch)
      (p.takeAll (leavingHandles batch)) where
  delivered := by
    simp only [List.map_map]
    apply List.map_congr_left
    intro x hx
    exact (resolveGrant_named (h.entries x hx)).2.symm
  table := p.capability_takeAll _
  process := p.takeAll_eq _
  moved o ho := by
    obtain ⟨x, hx, hm, rfl⟩ := (h.moves_iff o).mp ho
    have hlive : k.Live x.2 := (h.movable.1 x hx hm).1
    rw [moveObjects_epochs_of_mem h.movable hx hm, show k.epochs[x.2.object]? = some x.2.epoch from hlive]
    rfl
  unmoved o ho := by
    apply moveObjects_epochs_of_notMem
    intro x hx hm hobj
    exact ho ((h.moves_iff o).mpr ⟨x, hx, hm, hobj⟩)
  nextId := moveObjects_nextId k batch

theorem Applied.perm {gs gs' : List Grant} {caps caps' : List Capability} {k' k'' : Kernel}
    {p' p'' : Process} (h : Applied k p gs caps k' p') (h' : Applied k p gs' caps' k'' p'')
    (hp : gs.Perm gs') : k'' = k' ∧ p'' = p' := by
  have hmoves (o : ObjectId) : p.Moves gs' o ↔ p.Moves gs o := by
    simp only [Process.Moves, hp.mem_iff]
  have hkernel : k''.epochs = k'.epochs := by
    apply Std.ExtTreeMap.ext_getElem?
    intro o
    by_cases ho : p.Moves gs o
    · rw [h.moved o ho, h'.moved o ((hmoves o).mpr ho)]
    · rw [h.unmoved o ho, h'.unmoved o (mt (hmoves o).mp ho)]
  have htable : p''.capabilities = p'.capabilities := by
    apply Std.ExtTreeMap.ext_getElem?
    intro a
    have hleave : a ∈ gs'.filterMap Grant.leaving ↔ a ∈ gs.filterMap Grant.leaving :=
      (hp.filterMap Grant.leaving).mem_iff.symm
    have ha := h'.table a
    simp only [hleave] at ha
    exact ha.trans (h.table a).symm
  refine ⟨?_, ?_⟩
  · have hnext : k''.nextId = k'.nextId := h'.nextId.trans h.nextId.symm
    calc k'' = ⟨k''.nextId, k''.epochs⟩ := rfl
      _ = k' := by rw [hnext, hkernel]
  · rw [h'.process, htable]
    exact h.process.symm

end Batches

def reorder (gs : List Grant) (σ : Equiv.Perm (Fin gs.length)) : List Grant :=
  List.ofFn fun i => gs.get (σ i)

theorem reorder_perm (gs : List Grant) (σ : Equiv.Perm (Fin gs.length)) :
    (reorder gs σ).Perm gs := by
  have hperm := σ.ofFn_comp_perm gs.get
  rwa [List.ofFn_get] at hperm

/-- The entries that arrive move with the entries that were granted. -/
theorem Applied.delivered_reorder {k k' k'' : Kernel} {p p' p'' : Process} {gs : List Grant}
    {σ : Equiv.Perm (Fin gs.length)} {caps caps' : List Capability}
    (h : Applied k p gs caps k' p') (h' : Applied k p (reorder gs σ) caps' k'' p'')
    (i : Fin gs.length) : caps'[(i : ℕ)]? = caps[(σ i : ℕ)]? := by
  have hnew := congrArg (fun l => l[(i : ℕ)]?) h'.delivered
  have hold := congrArg (fun l => l[(σ i : ℕ)]?) h.delivered
  simp only [reorder, List.getElem?_map, List.getElem?_ofFn, Fin.is_lt, Option.map_some,
    List.getElem?_eq_getElem, dite_true] at hnew hold
  exact Option.map_injective (Option.some_injective _) (hnew.trans hold.symm)

/-- Batches are accepted by a rule without order and applied exactly, and a permuted batch
delivers the permuted capabilities from the same table and kernel to the same table and kernel. -/
theorem batches_order_free (k : Kernel) (p : Process) (gs : List Grant) :
    ((∃ caps, resolveGrants k p gs = .ok caps) ↔ Acceptable k p gs) ∧
    (∀ resolved, resolveGrants k p gs = .ok resolved → ∃ delivered k' p',
      applyGrants k p gs resolved = (.ok delivered, k', p') ∧ Applied k p gs delivered k' p') ∧
    ∀ σ : Equiv.Perm (Fin gs.length),
      (Acceptable k p (reorder gs σ) ↔ Acceptable k p gs) ∧
      ∀ resolved resolved', resolveGrants k p gs = .ok resolved →
        resolveGrants k p (reorder gs σ) = .ok resolved' → ∃ delivered delivered' k' p',
          applyGrants k p gs resolved = (.ok delivered, k', p') ∧
          applyGrants k p (reorder gs σ) resolved' = (.ok delivered', k', p') ∧
          ∀ i : Fin gs.length, delivered'[(i : ℕ)]? = delivered[(σ i : ℕ)]? := by
  have happly (gs : List Grant) (resolved : List Capability)
      (h : resolveGrants k p gs = .ok resolved) : ∃ delivered k' p',
        applyGrants k p gs resolved = (.ok delivered, k', p') ∧ Applied k p gs delivered k' p' := by
    obtain ⟨batch, hb, rfl, rfl⟩ := resolveGrants_eq_ok_iff.mp h
    exact ⟨_, _, _, applyGrants_of_resolved hb, hb.applied⟩
  refine ⟨resolveGrants_accepts_iff, happly gs, ?_⟩
  intro σ
  have hperm := reorder_perm gs σ
  refine ⟨⟨fun h => h.perm hperm, fun h => h.perm hperm.symm⟩, ?_⟩
  intro resolved resolved' hr hr'
  obtain ⟨delivered, k', p', happ, h⟩ := happly gs resolved hr
  obtain ⟨delivered', k'', p'', happ', h'⟩ := happly _ resolved' hr'
  obtain ⟨rfl, rfl⟩ := h.perm h' hperm.symm
  exact ⟨delivered, delivered', _, _, happ, happ', h.delivered_reorder h'⟩

end Muaddib
