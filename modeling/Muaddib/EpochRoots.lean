import Muaddib.SystemHistories

/-! # Roots of epochs

Every epoch of an object is opened by one event: the creation of the object, or one of its
revocations. Unless that was a plain revocation, the event returned the root of the epoch,
and all capabilities of the epoch are attenuations of the root. -/
namespace Muaddib
open LabelledRuns

def KernelEvent.opened : KernelEvent → Option (ObjectId × UInt64)
  | created c => some (c.object, 0)
  | revoked c | reissued c _ => some (c.object, c.epoch + 1)
  | derived _ _ | destroyed _ => none

/-- `root` was returned by the call that opened epoch `e` of `o`: by the allocation of `o` for
epoch 0, and by a reissue for every other epoch. -/
def IsRoot (log : List KernelEvent) (o : ObjectId) (e : UInt64) (root : Capability) : Prop :=
  root.object = o ∧ root.epoch = e ∧
    if e = 0 then .created root ∈ log else ∃ held, .reissued held root ∈ log

theorem eq_of_nodup_filterMap {α β : Type*} {f : α → Option β} {l : List α}
    (h : (l.filterMap f).Nodup) {a b : α} (ha : a ∈ l) (hb : b ∈ l) {x : β} (hfa : f a = some x)
    (hfb : f b = some x) : a = b := by
  induction l with
  | nil => simp at ha
  | cons y l ih =>
    have hmem : ∀ c ∈ l, f c = some x → x ∈ l.filterMap f :=
      fun c hc hfc => List.mem_filterMap.mpr ⟨c, hc, hfc⟩
    rcases List.mem_cons.mp ha with rfl | ha' <;> rcases List.mem_cons.mp hb with rfl | hb'
    · rfl
    · rw [List.filterMap_cons_some hfa, List.nodup_cons] at h
      exact absurd (hmem b hb' hfb) h.1
    · rw [List.filterMap_cons_some hfb, List.nodup_cons] at h
      exact absurd (hmem a ha' hfa) h.1
    · refine ih ?_ ha' hb'
      cases hy : f y with
      | none => rwa [List.filterMap_cons_none hy] at h
      | some z =>
        rw [List.filterMap_cons_some hy, List.nodup_cons] at h
        exact h.2

@[simp] theorem KernelEvent.kills_revoked (o : ObjectId) (held : Capability) :
    (revoked held).kills o = decide (held.object = o) := by
  simp [kills, bumps, destroys]

namespace KernelLog
variable {log : List KernelEvent} {k : Kernel} {o : ObjectId} {e : UInt64} {c : Capability}

theorem bumpCount_le_append (o : ObjectId) (pre post : List KernelEvent) :
    bumpCount o pre ≤ bumpCount o (pre ++ post) := by
  unfold bumpCount
  rw [List.countP_append]
  omega

/-- A minted capability is of an allocated object and of one of its epochs so far. -/
theorem minted_le (h : KernelLog log k) (hf : Fits log) (hc : c ∈ minted log) :
    c.object.val.toNat < allocations log ∧
      ∃ n ≤ bumpCount c.object log, c.epoch = UInt64.ofNat n := by
  obtain ⟨ev, hev, hm⟩ := List.mem_filterMap.mp hc
  obtain ⟨pre, post, hlog⟩ := List.append_of_mem hev
  obtain ⟨ho, he, -⟩ := (h.ledger hf).minted pre ev post c hlog hm
  refine ⟨ho, bumpCount c.object (pre ++ [ev]), ?_, he⟩
  have hlast : log = (pre ++ [ev]) ++ post := by rw [hlog, List.append_cons]
  rw [hlast]
  exact bumpCount_le_append ..

/-- Every event of a log was performed, by a capability minted in the log. -/
theorem performed_of_mem (h : KernelLog log k) {ev : KernelEvent} (hev : ev ∈ log) :
    (∃ k₁ k₂, ev.Performed k₁ k₂) ∧ ∀ a, ev.source = some a → a ∈ minted log := by
  induction h with
  | new => simp at hev
  | snoc prior source performed ih =>
    rcases List.mem_append.mp hev with hev | hev
    · obtain ⟨hp, hs⟩ := ih hev
      refine ⟨hp, fun a ha => ?_⟩
      rw [minted_snoc]
      exact List.mem_append_left _ (hs a ha)
    · obtain rfl := List.mem_singleton.mp hev
      refine ⟨⟨_, _, performed⟩, fun a ha => ?_⟩
      rw [minted_snoc]
      exact List.mem_append_left _ (source a ha)

/-- An opened epoch is of an allocated object and among its epochs so far. -/
theorem opened_le (h : KernelLog log k) (hf : Fits log)
    (ho : (o, e) ∈ log.filterMap KernelEvent.opened) :
    o.val.toNat < allocations log ∧ ∃ n ≤ bumpCount o log, e = UInt64.ofNat n := by
  induction h with
  | new => simp at ho
  | @snoc log k k' ev prior source performed ih =>
    rw [allocations_snoc, bumpCount_snoc]
    rw [List.filterMap_append, List.mem_append] at ho
    rcases ho with ho | ho
    · obtain ⟨hlt, n, hn, he⟩ := ih hf.of_append ho
      exact ⟨by omega, n, by omega, he⟩
    · have hledger := prior.ledger hf.of_append
      cases performed with
      | created r =>
        obtain ⟨rfl, rfl⟩ : o = ⟨k.nextId⟩ ∧ e = 0 := by
          simpa [KernelEvent.opened, Kernel.newObject] using ho
        have hnext := (hledger.eq_next_iff hf.of_append.allocations ⟨k.nextId⟩).mp rfl
        have hone : (KernelEvent.created (k.newObject r).1).isCreation = true := rfl
        rw [if_pos hone]
        exact ⟨by omega, 0, Nat.zero_le _, rfl⟩
      | derived _ _ _ => simp [KernelEvent.opened] at ho
      | @revoked held live _ | @reissued held live _ =>
        obtain ⟨rfl, rfl⟩ : o = held.object ∧ e = held.epoch + 1 := by
          simpa [KernelEvent.opened] using ho
        obtain ⟨hlt, -, he⟩ := hledger.of_live live
        refine ⟨by omega, bumpCount held.object log + 1, ?_, ?_⟩
        · simp [KernelEvent.bumps]
        · rw [he]
          simp
      | destroyed _ _ => simp [KernelEvent.opened] at ho

theorem opened_nodup (h : KernelLog log k) (hf : Fits log) :
    (log.filterMap KernelEvent.opened).Nodup := by
  induction h with
  | new => simp
  | @snoc log k k' ev prior source performed ih =>
    have hold := ih hf.of_append
    have hledger := prior.ledger hf.of_append
    have hbound : ∀ o, bumpCount o (log ++ [ev]) < 2 ^ 64 :=
      fun o => (bumpCount_le_revocations o _).trans_lt hf.revocations
    rw [List.filterMap_append]
    suffices hnew : ∀ x, ev.opened = some x → x ∉ log.filterMap KernelEvent.opened by
      cases hx : ev.opened with
      | none => simpa [hx] using hold
      | some x =>
        rw [List.filterMap_cons_some hx, List.filterMap_nil, ← List.concat_eq_append]
        exact hold.concat (hnew x hx)
    intro ⟨o, e⟩ hx hmem
    obtain ⟨hlt, n, hn, he⟩ := prior.opened_le hf.of_append hmem
    cases performed with
    | created r =>
      obtain ⟨rfl, -⟩ : (⟨k.nextId⟩ : ObjectId) = o ∧ 0 = e := by
        simpa [KernelEvent.opened, Kernel.newObject] using hx
      have hnext := (hledger.eq_next_iff hf.of_append.allocations ⟨k.nextId⟩).mp rfl
      omega
    | derived _ _ _ => simp [KernelEvent.opened] at hx
    | @revoked held live _ | @reissued held live _ =>
      obtain ⟨rfl, rfl⟩ : held.object = o ∧ held.epoch + 1 = e := by
        simpa [KernelEvent.opened] using hx
      have hlast := hbound held.object
      simp only [bumpCount_snoc, KernelEvent.bumps, decide_true, if_true] at hlast
      obtain ⟨-, -, hheld⟩ := hledger.of_live live
      have hsucc : UInt64.ofNat (bumpCount held.object log + 1) = UInt64.ofNat n := by
        rw [← he, hheld]
        simp
      have heq := MachineCounters.ofNat_inj hlast (by omega) hsucc
      omega
    | destroyed _ _ => simp [KernelEvent.opened] at hx

theorem opened_inj (h : KernelLog log k) (hf : Fits log) {ev ev' : KernelEvent}
    (hev : ev ∈ log) (hev' : ev' ∈ log) {x : ObjectId × UInt64} (ho : ev.opened = some x)
    (ho' : ev'.opened = some x) : ev = ev' :=
  eq_of_nodup_filterMap (h.opened_nodup hf) hev hev' ho ho'

theorem isRoot_mono {log' : List KernelEvent} {root : Capability} (h : IsRoot log o e root) :
    IsRoot (log ++ log') o e root := by
  obtain ⟨ho, he, hroot⟩ := h
  refine ⟨ho, he, ?_⟩
  split at hroot
  · next h0 =>
    rw [if_pos h0]
    exact List.mem_append_left _ hroot
  · next h0 =>
    rw [if_neg h0]
    exact hroot.imp fun _ hmem => List.mem_append_left _ hmem

theorem opened_of_isRoot (h : KernelLog log k) {root : Capability} (hroot : IsRoot log o e root) :
    ∃ ev ∈ log, ev.opened = some (o, e) ∧ ev.minted = some root := by
  obtain ⟨rfl, rfl, hroot⟩ := hroot
  split at hroot
  · next h0 => exact ⟨_, hroot, by simp [KernelEvent.opened, h0], rfl⟩
  · obtain ⟨held, hmem⟩ := hroot
    obtain ⟨⟨k₁, k₂, hp⟩, -⟩ := h.performed_of_mem hmem
    cases hp with
    | reissued live destroy => exact ⟨_, hmem, rfl, rfl⟩

theorem isRoot_unique (h : KernelLog log k) (hf : Fits log) {root root' : Capability}
    (hroot : IsRoot log o e root) (hroot' : IsRoot log o e root') : root = root' := by
  obtain ⟨ev, hev, ho, hm⟩ := h.opened_of_isRoot hroot
  obtain ⟨ev', hev', ho', hm'⟩ := h.opened_of_isRoot hroot'
  obtain rfl := h.opened_inj hf hev hev' ho ho'
  exact Option.some.inj (hm.symm.trans hm')

/-- The epoch a reissue opens is not 0: revocations are too few for the counter to wrap. -/
theorem succ_ne_zero_of_bump (h : KernelLog log k) {ev : KernelEvent}
    (hf : Fits (log ++ [ev])) {held : Capability} (live : k.Live held)
    (hb : ev.bumps held.object = true) : held.epoch + 1 ≠ 0 := by
  obtain ⟨-, -, he⟩ := (h.ledger hf.of_append).of_live live
  have hlast := (bumpCount_le_revocations held.object _).trans_lt hf.revocations
  rw [bumpCount_snoc, if_pos hb] at hlast
  intro h0
  have hz : UInt64.ofNat (bumpCount held.object log + 1) = UInt64.ofNat 0 := by
    rw [he] at h0
    simpa using h0
  have heq := MachineCounters.ofNat_inj hlast (by omega) hz
  omega

theorem exists_root (h : KernelLog log k) (hf : Fits log) (hc : c ∈ minted log) :
    ∃ root, IsRoot log c.object c.epoch root ∧ root.rights.contains c.rights = true := by
  induction h generalizing c with
  | new => simp [minted] at hc
  | @snoc log k k' ev prior source performed ih =>
    rw [minted_snoc, List.mem_append] at hc
    rcases hc with hc | hc
    · obtain ⟨root, hroot, hsub⟩ := ih hf.of_append hc
      exact ⟨root, isRoot_mono hroot, hsub⟩
    · cases performed with
      | created r =>
        obtain rfl : c = (k.newObject r).1 := by simpa [KernelEvent.minted] using hc
        refine ⟨(k.newObject r).1, ⟨rfl, rfl, ?_⟩, Rights.contains_refl _⟩
        simp [Kernel.newObject]
      | @derived held r live grant sub =>
        obtain rfl : c = ⟨held.object, r, held.epoch⟩ := by simpa [KernelEvent.minted] using hc
        obtain ⟨root, hroot, hsub⟩ := ih hf.of_append (source held rfl)
        exact ⟨root, isRoot_mono hroot, Rights.contains_trans hsub sub⟩
      | revoked _ _ => simp [KernelEvent.minted] at hc
      | @reissued held live destroy =>
        obtain rfl : c = ⟨held.object, held.rights, held.epoch + 1⟩ := by
          simpa [KernelEvent.minted] using hc
        have h0 := prior.succ_ne_zero_of_bump hf live (by simp [KernelEvent.bumps])
        refine ⟨_, ⟨rfl, rfl, ?_⟩, Rights.contains_refl _⟩
        rw [if_neg h0]
        exact ⟨held, List.mem_append_right _ List.mem_cons_self⟩
      | destroyed _ _ => simp [KernelEvent.minted] at hc

/-- A plain revocation opens an epoch no capability is ever minted in. -/
theorem epoch_ne_of_revoked (h : KernelLog log k) (hf : Fits log) {held : Capability}
    (hrev : .revoked held ∈ log) (hc : c ∈ minted log) (ho : c.object = held.object) :
    c.epoch ≠ held.epoch + 1 := by
  intro he
  obtain ⟨root, hroot, -⟩ := h.exists_root hf hc
  obtain ⟨ev, hev, hopen, hm⟩ := h.opened_of_isRoot hroot
  have hopen' : (KernelEvent.revoked held).opened = some (c.object, c.epoch) := by
    simp [KernelEvent.opened, ho, he]
  obtain rfl := h.opened_inj hf hev hrev hopen hopen'
  cases hm

/-- The root of a later epoch has at most the rights of the root of an earlier one. -/
theorem root_attenuates (h : KernelLog log k) (hf : Fits log) {e₁ e₂ : UInt64}
    {r₁ r₂ : Capability} (h₁ : IsRoot log o e₁ r₁) (h₂ : IsRoot log o e₂ r₂)
    (hle : e₁.toNat ≤ e₂.toNat) : r₁.rights.contains r₂.rights = true := by
  -- by strong induction on the later epoch, through the capability its reissue used
  generalize hn : e₂.toNat = n at hle
  induction n generalizing e₂ r₂ with
  | zero =>
    have heq : e₁ = e₂ := UInt64.toNat_inj.mp (by omega)
    subst heq
    rw [h.isRoot_unique hf h₁ h₂]
    exact Rights.contains_refl _
  | succ n ih =>
    rcases Nat.eq_or_lt_of_le hle with heq | hlt
    · have heq : e₁ = e₂ := UInt64.toNat_inj.mp (by omega)
      subst heq
      rw [h.isRoot_unique hf h₁ h₂]
      exact Rights.contains_refl _
    · obtain ⟨rfl, rfl, hroot⟩ := h₂
      have h0 : r₂.epoch ≠ 0 := by
        intro h0
        rw [h0] at hn
        simp at hn
      rw [if_neg h0] at hroot
      obtain ⟨held, hmem⟩ := hroot
      obtain ⟨⟨k₁, k₂, hp⟩, hsource⟩ := h.performed_of_mem hmem
      cases hp with
      | reissued live destroy =>
        obtain ⟨root, hroot, hsub⟩ := h.exists_root hf (hsource held rfl)
        have hheld : held.epoch.toNat = n := by
          have hsucc := MachineCounters.toNat_add_one_of_ne_zero h0
          dsimp only at hn
          omega
        exact Rights.contains_trans (ih hroot hheld (by omega)) hsub

theorem not_minted_after_revoked {pre post : List KernelEvent} {held : Capability}
    (h : KernelLog (pre ++ .revoked held :: post) k)
    (hf : Fits (pre ++ .revoked held :: post)) : ∀ c ∈ minted post, c.object ≠ held.object := by
  induction post using List.reverseRecOn generalizing k with
  | nil => simp [minted]
  | append_singleton post ev ih =>
    have hassoc : pre ++ .revoked held :: (post ++ [ev]) =
        (pre ++ .revoked held :: post) ++ [ev] := by simp
    rw [hassoc] at h hf
    obtain ⟨k₀, prior, source, performed⟩ := h.snoc_inv
    have hpost := ih prior hf.of_append
    have hledger := prior.ledger hf.of_append
    -- a capability for the object was minted before the revocation, which killed it
    have hdead : ∀ a ∈ minted (pre ++ .revoked held :: post), k₀.Live a →
        a.object ≠ held.object := by
      intro a ha hlive heq
      rw [mem_minted_append] at ha
      rcases ha with ha | ha
      · exact prior.not_live_of_kills hf.of_append ha (by simp [heq]) hlive
      · exact hpost a ha heq
    intro c hc
    rw [minted_snoc, List.mem_append] at hc
    rcases hc with hc | hc
    · exact hpost c hc
    · cases performed with
      | created r =>
        obtain rfl : c = (k₀.newObject r).1 := by simpa [KernelEvent.minted] using hc
        intro heq
        have hmem : KernelEvent.revoked held ∈ pre ++ .revoked held :: post := by simp
        have hsource := (prior.performed_of_mem hmem).2 held rfl
        have hlt := (prior.minted_le hf.of_append hsource).1
        have hnext := (hledger.eq_next_iff hf.of_append.allocations held.object).mp heq
        omega
      | @derived a r live grant sub =>
        obtain rfl : c = ⟨a.object, r, a.epoch⟩ := by simpa [KernelEvent.minted] using hc
        exact hdead a (source a rfl) live
      | revoked _ _ => simp [KernelEvent.minted] at hc
      | @reissued a live destroy =>
        obtain rfl : c = ⟨a.object, a.rights, a.epoch + 1⟩ := by
          simpa [KernelEvent.minted] using hc
        exact hdead a (source a rfl) live
      | destroyed _ _ => simp [KernelEvent.minted] at hc

/-- A plain revocation leaves no live capability for its object, now or later. -/
theorem not_live_of_revoked (h : KernelLog log k) (hf : Fits log) {held : Capability}
    (hrev : .revoked held ∈ log) (hc : c ∈ minted log) (ho : c.object = held.object) :
    ¬k.Live c := by
  intro hlive
  obtain ⟨pre, post, rfl⟩ := List.append_of_mem hrev
  rw [mem_minted_append] at hc
  rcases hc with hc | hc
  · exact h.not_live_of_kills hf hc (by simp [ho]) hlive
  · exact h.not_minted_after_revoked hf c hc ho

end KernelLog

/-- Authority only shrinks: everything that exists for an object is an attenuation of the root
of its epoch, later roots attenuate earlier ones, and a plain revocation is final. -/
theorem SystemRun.authority_attenuates {tr : List SystemEntry} {s : System} (h : SystemRun tr s)
    (hf : Fits (kernelLog tr)) :
    (∀ c, Produced tr c → ∃ root, IsRoot (kernelLog tr) c.object c.epoch root ∧
      root.rights.contains c.rights = true ∧
      ∀ root', IsRoot (kernelLog tr) c.object c.epoch root' → root' = root) ∧
    (∀ (o : ObjectId) (e₁ e₂ : UInt64) (r₁ r₂ : Capability), IsRoot (kernelLog tr) o e₁ r₁ →
      IsRoot (kernelLog tr) o e₂ r₂ → e₁ ≤ e₂ → r₁.rights.contains r₂.rights = true) ∧
    (∀ e ∈ tr, ∀ held, e.call = .revoke held → e.outcome = .ok .done →
      (∀ c, Produced tr c → c.object = held.object →
        c.epoch ≠ held.epoch + 1 ∧ ∀ r, s.kernel.check c r ≠ .ok ()) ∧
      ∀ call, Authorised tr call → call.OperatesOn s held.object →
        (∃ er, (s.step call).1 = .error (.err er)) ∧ (s.step call).2 = s) := by
  obtain ⟨hlog, hprod, -⟩ := h.log
  refine ⟨?_, ?_, ?_⟩
  · intro c hc
    obtain ⟨root, hroot, hsub⟩ := hlog.exists_root hf (hprod c hc)
    exact ⟨root, hroot, hsub, fun root' hroot' => hlog.isRoot_unique hf hroot' hroot⟩
  · intro o e₁ e₂ r₁ r₂ h₁ h₂ hle
    exact hlog.root_attenuates hf h₁ h₂ (UInt64.le_iff_toNat_le.mp hle)
  · intro e he held hcall hout
    have hrev : KernelEvent.revoked held ∈ kernelLog tr := by
      refine List.mem_flatMap.mpr ⟨e, he, ?_⟩
      simp [SystemEntry.kernelEvents, hcall, hout]
    have hdead : ∀ c, Produced tr c → c.object = held.object → ¬s.kernel.Live c :=
      fun c hc ho => hlog.not_live_of_revoked hf hrev (hprod c hc) ho
    constructor
    · intro c hc ho
      refine ⟨hlog.epoch_ne_of_revoked hf hrev (hprod c hc) ho, fun r hok => ?_⟩
      exact hdead c hc ho (Kernel.check_eq_ok_iff.mp hok).1
    · intro call hok huse
      exact h.operation_fails (fun c hc ho => hdead c hc.produced ho) hok huse

/-- A view derived from a reissued channel is bounded by the reissued root, and the plain
revocation at the end kills both. -/
theorem SystemRun.authority_attenuates_channel :
    let first : Capability := ⟨⟨0⟩, .READ ||| .WRITE ||| .GRANT ||| .DESTROY, 0⟩
    let second : Capability := ⟨⟨0⟩, .READ ||| .WRITE ||| .GRANT ||| .DESTROY, 1⟩
    let view : Capability := ⟨⟨0⟩, .WRITE, 1⟩
    let calls : List Call := [.newChannel, .reissue first, .derive second .WRITE, .revoke second]
    (∃ root, IsRoot (kernelLog (trace System.step .new calls)) ⟨0⟩ 1 root ∧
      root.rights.contains view.rights = true) ∧
    (final System.step .new calls).kernel.check view .NONE ≠ .ok () := by
  intro first second view calls
  have hrun : SystemRun (trace System.step .new calls) (final System.step .new calls) :=
    Run.of_calls (by decide +kernel)
  have hview : Produced (trace System.step .new calls) view :=
    Seen.produced (by decide +kernel)
  obtain ⟨hroots, -, hrevoked⟩ := hrun.authority_attenuates ⟨by decide +kernel, by decide +kernel⟩
  obtain ⟨root, hroot, hsub, -⟩ := hroots view hview
  have hlast := (hrevoked _ (List.getElem_mem (n := 3) (by decide +kernel)) second rfl
    (by decide +kernel)).1 view hview rfl
  exact ⟨⟨root, hroot, hsub⟩, hlast.2 .NONE⟩

end Muaddib
