import Muaddib.ChaosTables

/-! # The model of a batch

The model accepts a batch exactly when the kernel does, and the models it hands over describe the
capabilities the kernel delivers. -/
namespace Muaddib.Chaos

def RegionModel.content (region : RegionModel) : ObjectId × Bool × Bytes :=
  (region.object, region.alive, region.bytes)

namespace Authority
variable {k : Kernel} {objects : List ObjectId} {regions : List RegionModel} {r : ℕ}
  {region region' : RegionModel}

/-- The kernel's entry for one region changes together with the model of it. -/
theorem set {k' : Kernel} (h : Authority k objects regions) (hr : regions[r]? = some region)
    (hobject : region'.object = region.object) (hnext : k'.nextId = k.nextId)
    (hepochs : ∀ o, k'.epochs[o]? = if region.object = o then
      (if region'.alive then some region'.epoch else none) else k.epochs[o]?) :
    Authority k' objects (regions.set r region') := by
  have hlt : r < regions.length := (List.getElem?_eq_some_iff.mp hr).1
  have hfew := h.few
  have hslot := (h.region r region hr).1
  refine ⟨?_, ?_, h.objects, fun c hc => ?_, fun i region₁ hi => ?_⟩
  · rwa [List.length_set]
  · rw [List.length_set, hnext, h.nextId]
  · rw [hepochs, if_neg, h.channel c hc]
    rw [hslot, objectAt_inj (by omega) (by omega)]
    omega
  · rw [List.getElem?_set, if_pos hlt] at hi
    split at hi
    · next heq =>
      subst heq
      obtain rfl := Option.some.inj hi
      refine ⟨hobject.trans hslot, ?_⟩
      rw [hobject, hepochs, if_pos rfl]
    · next hne =>
      have hi' : i < regions.length := (List.getElem?_eq_some_iff.mp hi).1
      obtain ⟨hslot₁, hepoch₁⟩ := h.region i region₁ hi
      refine ⟨hslot₁, ?_⟩
      rw [hepochs, if_neg, hepoch₁]
      rw [hslot, hslot₁, objectAt_inj (by omega) (by omega)]
      omega

theorem bump (h : Authority k objects regions) (hr : regions[r]? = some region)
    (halive : region.alive = true) {o : ObjectId} {e : UInt64} (ho : region.object = o) :
    Authority (k.bump o e) objects (regions.set r { region with epoch := e + 1 }) := by
  subst ho
  refine h.set hr ?_ (k.bump_nextId _ _) fun o => ?_
  · rfl
  · rw [Kernel.bump_epochs, if_pos halive]

theorem live_region {m : CapModel} (h : Authority k objects regions) (hm : m.Known regions.length)
    (hobj : m.obj = .region r) (hlive : k.Live m.cap) : ∃ region, regions[r]? = some region ∧
      region.object = m.cap.object ∧ region.alive = true ∧ region.epoch = m.epoch := by
  obtain ⟨region, hr⟩ := lookup (hm.region r hobj)
  obtain ⟨hobject, hepoch⟩ := h.region r region hr
  have hsame : region.object = m.cap.object := by rw [hobject, CapModel.cap, hobj]; rfl
  rw [Kernel.Live, ← hsame, hepoch] at hlive
  cases halive : region.alive with
  | false =>
    rw [halive] at hlive
    cases hlive
  | true =>
    rw [halive, if_pos rfl] at hlive
    exact ⟨region, hr, hsame, halive, Option.some.inj hlive⟩

end Authority

theorem content_set {regions : List RegionModel} {r : ℕ} {region region' : RegionModel}
    (hr : regions[r]? = some region) (hcontent : region'.content = region.content) :
    (regions.set r region').map RegionModel.content = regions.map RegionModel.content := by
  apply List.ext_getElem?
  intro i
  rw [List.getElem?_map, List.getElem?_map, List.getElem?_set]
  split
  · next heq =>
    subst heq
    rw [if_pos (List.getElem?_eq_some_iff.mp hr).1, hr, Option.map_some, Option.map_some, hcontent]
  · rfl

theorem Storage.congr {mem : RegionRegistry} {regions regions' : List RegionModel}
    (h : Storage mem regions)
    (hsame : regions'.map RegionModel.content = regions.map RegionModel.content) :
    Storage mem regions' := by
  have hback : ∀ region' ∈ regions', ∃ region ∈ regions, region.content = region'.content := by
    intro region' hregion'
    have hmem := List.mem_map_of_mem (f := RegionModel.content) hregion'
    rwa [hsame, List.mem_map] at hmem
  have hforth : ∀ region ∈ regions, ∃ region' ∈ regions', region'.content = region.content := by
    intro region hregion
    have hmem := List.mem_map_of_mem (f := RegionModel.content) hregion
    rwa [← hsame, List.mem_map] at hmem
  refine ⟨fun region' hregion' => ?_, fun o ho => ?_, ?_⟩
  · obtain ⟨region, hregion, hcontent⟩ := hback region' hregion'
    simp only [RegionModel.content, Prod.mk.injEq] at hcontent
    rw [← hcontent.1, ← hcontent.2.1, ← hcontent.2.2]
    exact h.bytes region hregion
  · obtain ⟨region, hregion, rfl⟩ := h.stored o ho
    obtain ⟨region', hregion', hcontent⟩ := hforth region hregion
    exact ⟨region', hregion', congrArg Prod.fst hcontent⟩
  · have hcount : ∀ l : List RegionModel, (l.filter fun region => region.alive).length =
        ((l.map RegionModel.content).filter fun x => x.2.1).length := by
      intro l
      rw [List.filter_map, List.length_map]
      rfl
    rw [h.count, hcount, hcount, hsame]

section Resolving
variable {w : World} {i : ℕ} {pm : ProcModel} {p : Process}

theorem resolveEntry_cases (h : Authority w.k w.channelObjects w.regions) {m : CapModel}
    (hm : m.Known w.regions.length) {a : Handle}
    (ha : p.capability a = some m.cap) (kind : GrantKind) :
    (∃ e, resolveGrant w.k p (toGrant (a, kind)) = .error e ∧ w.resolveEntry m kind = .ok none) ∨
      ∃ m', resolveGrant w.k p (toGrant (a, kind)) = .ok m'.cap ∧
        w.resolveEntry m kind = .ok (some m') ∧ m'.obj = m.obj := by
  cases kind with
  | transfer => exact Or.inr ⟨m, resolveGrant_transfer_iff.mpr ha, rfl, rfl⟩
  | derive rights =>
    rw [World.resolveEntry, predictCheck_eq h hm, ok_bind]
    simp only [toGrant, resolveGrant, Grant.handle, ha, Kernel.derive]
    cases hcheck : w.k.check m.cap .GRANT with
    | error e => exact Or.inl ⟨_, rfl, rfl⟩
    | ok u =>
      by_cases hrights : m.rights.contains rights = true
      · refine Or.inr ⟨{ m with rights }, ?_, ?_, rfl⟩
        · simp only [CapModel.cap, hrights, if_true]
          rfl
        · simp only [hrights, if_true]
          rfl
      · refine Or.inl ⟨.capability (.cannotAmplify m.cap.object m.cap.rights rights), ?_, ?_⟩
        · simp only [CapModel.cap, hrights]
          rfl
        · simp only [hrights]
          rfl
  | move =>
    rw [World.resolveEntry, predictCheck_eq h hm, ok_bind]
    simp only [toGrant, resolveGrant, Grant.handle, ha]
    cases hcheck : w.k.check m.cap .DESTROY with
    | error e => exact Or.inl ⟨_, rfl, rfl⟩
    | ok u => exact Or.inr ⟨m, rfl, rfl, rfl⟩

theorem recordTransfer_eq (transferred : List Handle) (a : Handle) (kind : GrantKind) :
    recordTransfer transferred (toGrant (a, kind)) =
      if kind.leaves && transferred.contains a then .error (.duplicateTransfer a)
      else .ok (if kind.leaves then a :: transferred else transferred) := by
  cases kind with
  | derive rights => rfl
  | transfer | move =>
    simp [recordTransfer, toGrant, Grant.leaving, GrantKind.leaves]

theorem resolveModel_cases (h : Authority w.k w.channelObjects w.regions)
    (hi : w.procs[i]? = some pm) (hheld : Held w.regions.length pm.table p)
    {grants : List (Handle × GrantKind)}
    (hregions : ∀ x ∈ grants, ∃ m, pm.table[x.1]? = some m ∧ m.obj.isRegion = true)
    {seen transferred : List Handle} (hseen : ∀ a, a ∈ seen ↔ a ∈ transferred) :
    (∃ e, resolveEntries w.k p transferred (toGrants grants) = .error e ∧
      w.resolveModel i seen grants = .ok none) ∨
    ∃ models, resolveEntries w.k p transferred (toGrants grants) = .ok (models.map CapModel.cap) ∧
      w.resolveModel i seen grants = .ok (some models) ∧
      ∀ m ∈ models, m.Known w.regions.length ∧ m.obj.isRegion = true := by
  induction grants generalizing seen transferred with
  | nil => exact Or.inr ⟨[], rfl, rfl, fun m hm => by cases hm⟩
  | cons x grants ih =>
    obtain ⟨a, kind⟩ := x
    obtain ⟨m, hget, hregion⟩ := hregions _ List.mem_cons_self
    have hrest := fun y hy => hregions y (List.mem_cons_of_mem _ hy)
    have hcap : p.capability a = some m.cap := by rw [hheld.capability, hget, Option.map_some]
    have hknown := hheld.known a m hget
    have hmodel : w.resolveModel i seen ((a, kind) :: grants) =
        if kind.leaves && seen.contains a then .ok none else
          w.resolveEntry m kind >>= fun entry => entry.elim (.ok none) fun m' =>
            w.resolveModel i (if kind.leaves then seen ++ [a] else seen) grants >>=
              fun rest => .ok (rest.map (m' :: ·)) := by
      rw [World.resolveModel, index_eq hi, ok_bind, hget, expect_some, ok_bind]
      split
      · rfl
      · apply congrArg
        funext entry
        cases entry <;> rfl
    have hgrants : toGrants ((a, kind) :: grants) = toGrant (a, kind) :: toGrants grants := rfl
    have hsame : seen.contains a = transferred.contains a := by
      rw [Bool.eq_iff_iff, List.contains_iff_mem, List.contains_iff_mem]
      exact hseen a
    rw [hmodel, hgrants, resolveEntries, recordTransfer_eq, hsame]
    by_cases hdouble : (kind.leaves && transferred.contains a) = true
    · rw [if_pos hdouble, if_pos hdouble]
      exact Or.inl ⟨.duplicateTransfer a, rfl, rfl⟩
    · rw [if_neg hdouble, if_neg hdouble]
      have hnext : ∀ b, b ∈ (if kind.leaves = true then seen ++ [a] else seen) ↔
          b ∈ (if kind.leaves = true then a :: transferred else transferred) := by
        intro b
        split
        · simp [hseen, or_comm]
        · exact hseen b
      rcases resolveEntry_cases h hknown hcap kind with ⟨e, he, hnone⟩ | ⟨m', hm', hsome, hobj⟩
      · rw [hnone, ok_bind, he]
        exact Or.inl ⟨e, rfl, rfl⟩
      · rw [hsome, ok_bind, hm']
        have hknown' : m'.Known w.regions.length := by
          refine ⟨fun r hr => hknown.region r (hobj ▸ hr), fun c hc => ?_⟩
          rw [hobj] at hc
          rw [hc] at hregion
          cases hregion
        rcases ih hrest hnext with ⟨e, he, hnone⟩ | ⟨models, hall, hmodels, hgood⟩
        · simp only [he, hnone]
          exact Or.inl ⟨e, rfl, rfl⟩
        · simp only [hall, hmodels]
          refine Or.inr ⟨m' :: models, rfl, rfl, fun m₁ hm₁ => ?_⟩
          rcases List.mem_cons.mp hm₁ with rfl | hm₁
          · exact ⟨hknown', hobj ▸ hregion⟩
          · exact hgood m₁ hm₁

theorem any_congr_mem {α : Type} {l : List α} {f g : α → Bool} (h : ∀ a ∈ l, f a = g a) :
    l.any f = l.any g := by
  induction l with
  | nil => rfl
  | cons a l ih =>
    rw [List.any_cons, List.any_cons, h a List.mem_cons_self,
      ih fun b hb => h b (List.mem_cons_of_mem a hb)]

theorem moveConflict_eq (h : Authority w.k w.channelObjects w.regions) {models : List CapModel}
    (hmodels : ∀ m ∈ models, m.Known w.regions.length) (grants : List (Handle × GrantKind)) :
    (findMoveConflict (toGrants grants) (models.map CapModel.cap)).isSome =
      World.moveConflict grants models := by
  have hmove : ∀ x : Handle × GrantKind, (toGrant x).isMove = x.2.isMove := by
    rintro ⟨a, kind⟩
    cases kind <;> rfl
  have hconflict : ∀ m ∈ models, ∀ j, conflictsWith (models.map CapModel.cap) j m.cap.object =
      models.zipIdx.any fun y => y.2 != j && y.1.obj == m.obj := by
    intro m hm j
    rw [conflictsWith, List.zipIdx_map, List.any_map]
    apply any_congr_mem
    rintro ⟨m', j'⟩ hy
    have hmem : m' ∈ models := List.fst_mem_of_mem_zipIdx hy
    have hobjects : (m'.cap.object == m.cap.object) = (m'.obj == m.obj) := by
      rw [Bool.eq_iff_iff, beq_iff_eq, beq_iff_eq]
      exact (hmodels m' hmem).object_eq_iff (hmodels m hm) h.few
    exact congrArg (j' != j && ·) hobjects
  rw [findMoveConflict, World.moveConflict, toGrants, List.zip_map, List.zipIdx_map,
    List.findSome?_map, List.isSome_findSome?]
  apply any_congr_mem
  rintro ⟨⟨x, m⟩, j⟩ hx
  have hmem : m ∈ models := (List.of_mem_zip (List.fst_mem_of_mem_zipIdx hx)).2
  change (if ((toGrant x).isMove && conflictsWith (models.map CapModel.cap) j m.cap.object) = true
    then some m.cap.object else none).isSome = _
  rw [hmove, hconflict m hmem]
  split
  · next hyes => exact hyes.symm
  · next hno => exact (Bool.eq_false_of_not_eq_true hno).symm

end Resolving

/-- What the model of a world says about a batch that left. -/
structure HandsOver (w : World) (k : Kernel) (batch : List (Grant × Capability))
    (delivered : List CapModel) (regions : List RegionModel) : Prop where
  authority : Authority (moveObjects k batch) w.channelObjects regions
  contents : regions.map RegionModel.content = w.regions.map RegionModel.content
  delivers : delivered.map CapModel.cap = batch.map deliver
  known : ∀ m ∈ delivered, m.Known w.regions.length

/-- The entries of a batch with the capabilities they resolved to. -/
def batchOf (grants : List (Handle × GrantKind)) (models : List CapModel) :
    List (Grant × Capability) := (toGrants grants).zip (models.map CapModel.cap)

section Applying
variable {i : ℕ} {k : Kernel}

theorem removeHandle_eq {w : World} {pm : ProcModel} (hi : w.procs[i]? = some pm) (a : Handle) :
    w.removeHandle i a =
      .ok { w with procs := w.procs.set i { pm with table := pm.table.erase a } } := by
  rw [World.removeHandle, index_eq hi]
  rfl

/-- The third loop does to the model what the batch does to the kernel and to the table. -/
theorem applyModel_eq {w : World} {pm : ProcModel} {grants : List (Handle × GrantKind)}
    {models : List CapModel} (hi : w.procs[i]? = some pm)
    (h : Authority k w.channelObjects w.regions) (hlength : grants.length = models.length)
    (hmodels : ∀ m ∈ models, m.Known w.regions.length ∧ m.obj.isRegion = true)
    (hmovable : Movable k (batchOf grants models)) :
    ∃ delivered regions, World.applyModel i grants models w = .ok (delivered, { w with
        procs := w.procs.set i
          { pm with table := eraseAll pm.table (leavingHandles (batchOf grants models)) }
        regions }) ∧ HandsOver w k (batchOf grants models) delivered regions := by
  induction grants generalizing w pm k models with
  | nil =>
    cases models with
    | cons m models => cases hlength
    | nil =>
      refine ⟨[], w.regions, ?_, h, rfl, rfl, fun m hm => by cases hm⟩
      have hself : w.procs.set i { pm with table := eraseAll pm.table [] } = w.procs := set_self hi
      change (Except.ok ([], w) : Check _) = .ok ([], { w with
        procs := w.procs.set i { pm with table := eraseAll pm.table [] } })
      rw [hself]
  | cons x grants ih =>
    obtain ⟨a, kind⟩ := x
    cases models with
    | nil => cases hlength
    | cons m models =>
      have hlength' : grants.length = models.length := Nat.succ.inj hlength
      obtain ⟨hknown, hregion⟩ := hmodels m List.mem_cons_self
      have hrest : ∀ m ∈ models, m.Known w.regions.length ∧ m.obj.isRegion = true :=
        fun m' hm' => hmodels m' (List.mem_cons_of_mem _ hm')
      have hlt : i < w.procs.length := (List.getElem?_eq_some_iff.mp hi).1
      let pm₁ : ProcModel := { pm with table := pm.table.erase a }
      have hi₁ : (w.procs.set i pm₁)[i]? = some pm₁ := List.getElem?_set_self hlt
      cases kind with
      | transfer =>
        have hmovable' : Movable k (batchOf grants models) := hmovable.moveObject
        obtain ⟨delivered, regions, happly, hover⟩ :=
          ih (w := { w with procs := w.procs.set i pm₁ }) hi₁ h hlength' hrest hmovable'
        refine ⟨m :: delivered, regions, ?_, hover.authority, hover.contents, ?_, ?_⟩
        · rw [World.applyModel, removeHandle_eq hi, ok_bind, happly, List.set_set]
          rfl
        · exact congrArg (m.cap :: ·) hover.delivers
        · intro m' hm'
          rcases List.mem_cons.mp hm' with rfl | hm'
          · exact hknown
          · exact hover.known m' hm'
      | derive rights =>
        have hmovable' : Movable k (batchOf grants models) := hmovable.moveObject
        obtain ⟨delivered, regions, happly, hover⟩ := ih hi h hlength' hrest hmovable'
        refine ⟨m :: delivered, regions, ?_, hover.authority, hover.contents, ?_, ?_⟩
        · rw [World.applyModel, happly]
          rfl
        · exact congrArg (m.cap :: ·) hover.delivers
        · intro m' hm'
          rcases List.mem_cons.mp hm' with rfl | hm'
          · exact hknown
          · exact hover.known m' hm'
      | move =>
        cases hobj : m.obj with
        | channel c =>
          rw [hobj] at hregion
          cases hregion
        | region r =>
          have hlive : k.Live m.cap := (hmovable.1 (.move a, m.cap) List.mem_cons_self rfl).1
          obtain ⟨region, hr, hobject, halive, hepoch⟩ := h.live_region hknown hobj hlive
          have hmovable' : Movable (k.bump m.cap.object m.epoch) (batchOf grants models) :=
            hmovable.moveObject
          let region₁ : RegionModel := { region with epoch := m.epoch + 1 }
          have hbump : Authority (k.bump m.cap.object m.epoch) w.channelObjects
              (w.regions.set r region₁) := h.bump hr halive hobject
          have hlength₁ : (w.regions.set r region₁).length = w.regions.length := List.length_set ..
          obtain ⟨delivered, regions, happly, hover⟩ := ih
            (w := { w with procs := w.procs.set i pm₁, regions := w.regions.set r region₁ }) hi₁ hbump
            hlength' (fun m' hm' => hlength₁.symm ▸ hrest m' hm') hmovable'
          have hcontents : (w.regions.set r region₁).map RegionModel.content =
              w.regions.map RegionModel.content := content_set hr rfl
          refine ⟨{ m with epoch := m.epoch + 1 } :: delivered, regions, ?_, hover.authority,
            hover.contents.trans hcontents, ?_, ?_⟩
          · rw [World.applyModel, removeHandle_eq hi, ok_bind]
            simp only [hobj, index_eq hr, ok_bind, hepoch]
            rw [happly, List.set_set]
            rfl
          · exact congrArg (({ m with epoch := m.epoch + 1 } : CapModel).cap :: ·) hover.delivers
          · intro m' hm'
            rcases List.mem_cons.mp hm' with rfl | hm'
            · refine ⟨hknown.region, fun c hc => ?_⟩
              rw [hobj] at hc
              cases hc
            · exact hlength₁ ▸ hover.known m' hm'

/-- The handles a batch of regions takes out of the table are those of regions. -/
theorem leaving_of_grants {pm : ProcModel} {grants : List (Handle × GrantKind)}
    (hregions : ∀ x ∈ grants, ∃ m, pm.table[x.1]? = some m ∧ m.obj.isRegion = true)
    {batch : List (Grant × Capability)} (hgrants : toGrants grants = batch.map Prod.fst) :
    ∀ a ∈ leavingHandles batch, ∃ m, pm.table[a]? = some m ∧ m.obj.isRegion = true := by
  intro a ha
  rw [leavingHandles, ← hgrants, toGrants, List.filterMap_map, List.mem_filterMap] at ha
  obtain ⟨⟨b, kind⟩, hx, hleaving⟩ := ha
  obtain ⟨m, hget, hregion⟩ := hregions _ hx
  cases kind with
  | derive rights => cases hleaving
  | transfer | move =>
    obtain rfl := Option.some.inj hleaving
    exact ⟨m, hget, hregion⟩

/-- The model refuses a batch that the kernel refuses, and hands over what the kernel does. -/
theorem applyGrantsModel_cases {w : World} {pm : ProcModel} {p : Process}
    (h : Authority w.k w.channelObjects w.regions) (hi : w.procs[i]? = some pm)
    (hheld : Held w.regions.length pm.table p) {grants : List (Handle × GrantKind)}
    (hregions : ∀ x ∈ grants, ∃ m, pm.table[x.1]? = some m ∧ m.obj.isRegion = true) :
    (∃ e, resolveGrants w.k p (toGrants grants) = .error e ∧
      w.applyGrantsModel i grants = .ok (none, w)) ∨
    ∃ batch delivered regions, Resolved w.k p batch ∧ toGrants grants = batch.map Prod.fst ∧
      w.applyGrantsModel i grants = .ok (some delivered, { w with
        procs := w.procs.set i { pm with table := eraseAll pm.table (leavingHandles batch) }
        regions }) ∧
      HandsOver w w.k batch delivered regions ∧
      ∀ x ∈ batch, ∃ r, r < w.regions.length ∧ x.2.object = objectAt (channelCount + r) := by
  have hseen : ∀ a : Handle, a ∈ ([] : List Handle) ↔ a ∈ ([] : List Handle) := fun a => Iff.rfl
  rcases resolveModel_cases h hi hheld hregions hseen with ⟨e, he, hnone⟩ | ⟨models, hall, hmodels, hgood⟩
  · refine Or.inl ⟨e, ?_, ?_⟩
    · rw [resolveGrants, he]
    · rw [World.applyGrantsModel, hnone]
      rfl
  · have hconflict := moveConflict_eq h (fun m hm => (hgood m hm).1) grants
    cases hfind : findMoveConflict (toGrants grants) (models.map CapModel.cap) with
    | some o =>
      rw [hfind] at hconflict
      refine Or.inl ⟨.moveConflict o, ?_, ?_⟩
      · rw [resolveGrants, hall]
        simp only [hfind]
      · rw [World.applyGrantsModel, hmodels, ok_bind]
        simp only [← hconflict, Option.isSome_some, if_true]
        rfl
    | none =>
      rw [hfind] at hconflict
      have hok : resolveGrants w.k p (toGrants grants) = .ok (models.map CapModel.cap) := by
        rw [resolveGrants, hall]
        simp only [hfind]
      obtain ⟨batch, hbatch, hgrants, hcaps⟩ := resolveGrants_eq_ok_iff.mp hok
      have hzip : batchOf grants models = batch := by
        rw [batchOf, hgrants, hcaps]
        exact (List.zip_of_prod rfl rfl).symm
      have hlength : grants.length = models.length := by
        have hfst := congrArg List.length hgrants
        have hsnd := congrArg List.length hcaps
        simp only [toGrants, List.length_map] at hfst hsnd
        omega
      have hmovable : Movable w.k (batchOf grants models) := hzip ▸ hbatch.movable
      obtain ⟨delivered, regions, happly, hover⟩ := applyModel_eq hi h hlength hgood hmovable
      rw [hzip] at happly hover
      refine Or.inr ⟨batch, delivered, regions, hbatch, hgrants, ?_, hover, fun x hx => ?_⟩
      · rw [World.applyGrantsModel, hmodels, ok_bind]
        simp only [← hconflict, Option.isSome_none, Bool.false_eq_true, if_false, happly, ok_bind]
        rfl
      · have hmem : x.2 ∈ models.map CapModel.cap := hcaps ▸ List.mem_map_of_mem hx
        obtain ⟨m, hm, hcap⟩ := List.mem_map.mp hmem
        obtain ⟨hknown, hregion⟩ := hgood m hm
        rw [← hcap]
        cases hobj : m.obj with
        | channel c =>
          rw [hobj] at hregion
          cases hregion
        | region r =>
          refine ⟨r, hknown.region r hobj, ?_⟩
          rw [CapModel.cap, hobj]
          rfl

end Applying
end Muaddib.Chaos
