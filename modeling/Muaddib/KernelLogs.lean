import Muaddib.Capabilities
import Muaddib.MachineCounters

/-! # The log of a kernel

Whatever is built on the kernel changes it through five kinds of successful calls. A log
lists them in order. The table is a function of the log: an object exists from its creation
to its destruction, and its epoch is the number of its revocations. -/
namespace Muaddib

/-- A successful kernel call, with the capabilities it used and returned. -/
inductive KernelEvent where
  | created (fresh : Capability)
  | derived (held view : Capability)
  | revoked (held : Capability)
  | reissued (held fresh : Capability)
  | destroyed (held : Capability)
  deriving DecidableEq, Repr

namespace KernelEvent

def minted : KernelEvent → Option Capability
  | created c | derived _ c | reissued _ c => some c
  | revoked _ | destroyed _ => none

def source : KernelEvent → Option Capability
  | created _ => none
  | derived c _ | revoked c | reissued c _ | destroyed c => some c

def isCreation : KernelEvent → Bool
  | created _ => true
  | _ => false

/-- The event moved `o` to its next epoch. -/
def bumps (o : ObjectId) : KernelEvent → Bool
  | revoked c | reissued c _ => c.object = o
  | _ => false

def isRevocation : KernelEvent → Bool
  | revoked _ | reissued _ _ => true
  | _ => false

def destroys (o : ObjectId) : KernelEvent → Bool
  | destroyed c => c.object = o
  | _ => false

/-- The event ended every capability for `o` that existed before it. -/
def kills (o : ObjectId) (ev : KernelEvent) : Bool := ev.bumps o || ev.destroys o

inductive Performed (k : Kernel) : KernelEvent → Kernel → Prop where
  | created (r : Rights) : Performed k (.created (k.newObject r).1) (k.newObject r).2
  | derived {held : Capability} {r : Rights} (live : k.Live held)
      (grant : held.rights.contains .GRANT = true) (sub : held.rights.contains r = true) :
      Performed k (.derived held ⟨held.object, r, held.epoch⟩) k
  | revoked {held : Capability} (live : k.Live held)
      (destroy : held.rights.contains .DESTROY = true) :
      Performed k (.revoked held) (k.bump held.object held.epoch)
  | reissued {held : Capability} (live : k.Live held)
      (destroy : held.rights.contains .DESTROY = true) :
      Performed k (.reissued held ⟨held.object, held.rights, held.epoch + 1⟩)
        (k.bump held.object held.epoch)
  | destroyed {held : Capability} (live : k.Live held)
      (destroy : held.rights.contains .DESTROY = true) :
      Performed k (.destroyed held) (k.remove held.object)

/-- An event authorised for other objects only leaves an allocated object as it was. -/
theorem Performed.frame {k k' : Kernel} {ev : KernelEvent} {o : ObjectId} (h : ev.Performed k k')
    (hother : ∀ c, ev.source = some c → c.object ≠ o) (hnext : ⟨k.nextId⟩ ≠ o) :
    k'.epochs[o]? = k.epochs[o]? := by
  cases h with
  | created r => rw [Kernel.newObject_epochs, if_neg hnext]
  | derived _ _ _ => rfl
  | revoked _ _ | reissued _ _ => rw [Kernel.bump_epochs, if_neg (hother _ rfl)]
  | destroyed _ _ => rw [Kernel.remove_epochs, if_neg (hother _ rfl)]

end KernelEvent

def minted (log : List KernelEvent) : List Capability := log.filterMap KernelEvent.minted

/-- The logs of a kernel whose capabilities cannot be forged: every event is authorised by a
capability an earlier event returned. -/
inductive KernelLog : List KernelEvent → Kernel → Prop where
  | new : KernelLog [] .new
  | snoc {log : List KernelEvent} {k k' : Kernel} {ev : KernelEvent} (prior : KernelLog log k)
      (source : ∀ c, ev.source = some c → c ∈ minted log) (performed : ev.Performed k k') :
      KernelLog (log ++ [ev]) k'

def allocations (log : List KernelEvent) : ℕ := log.countP KernelEvent.isCreation

def revocations (log : List KernelEvent) : ℕ := log.countP KernelEvent.isRevocation

/-- The number of times `o` was moved to a next epoch. -/
def bumpCount (o : ObjectId) (log : List KernelEvent) : ℕ := log.countP (KernelEvent.bumps o)

def Destroyed (o : ObjectId) (log : List KernelEvent) : Prop := ∃ ev ∈ log, ev.destroys o = true

instance (o : ObjectId) (log : List KernelEvent) : Decidable (Destroyed o log) :=
  inferInstanceAs (Decidable (∃ _ ∈ _, _))

/-- The log is short enough that no kernel counter wraps. -/
structure Fits (log : List KernelEvent) : Prop where
  allocations : allocations log < 2 ^ 64
  revocations : revocations log < 2 ^ 64

theorem Fits.of_append {log log' : List KernelEvent} (h : Fits (log ++ log')) : Fits log := by
  obtain ⟨ha, hr⟩ := h
  unfold Muaddib.allocations at ha
  unfold Muaddib.revocations at hr
  rw [List.countP_append] at ha hr
  exact ⟨Nat.lt_of_le_of_lt (Nat.le_add_right ..) ha, Nat.lt_of_le_of_lt (Nat.le_add_right ..) hr⟩

theorem bumpCount_le_revocations (o : ObjectId) (log : List KernelEvent) :
    bumpCount o log ≤ revocations log := by
  apply List.countP_mono_left
  intro ev _ h
  cases ev <;> simp_all [KernelEvent.bumps, KernelEvent.isRevocation]

structure Ledger (log : List KernelEvent) (k : Kernel) : Prop where
  nextId : k.nextId = UInt64.ofNat (allocations log)
  epochs : ∀ o, k.epochs[o]? =
    if o.val.toNat < allocations log ∧ ¬Destroyed o log then some (UInt64.ofNat (bumpCount o log))
    else none
  fresh : ∀ o, allocations log ≤ o.val.toNat → ∀ ev ∈ log, ev.kills o = false
  minted : ∀ pre ev post c, log = pre ++ ev :: post → ev.minted = some c →
    c.object.val.toNat < allocations log ∧ c.epoch = UInt64.ofNat (bumpCount c.object (pre ++ [ev]))
      ∧ ¬Destroyed c.object (pre ++ [ev])

section Counts
variable (o : ObjectId) (log : List KernelEvent) (ev : KernelEvent)

theorem allocations_snoc : allocations (log ++ [ev]) = allocations log + if ev.isCreation then 1 else 0 := by
  simp [allocations, List.countP_append, List.countP_singleton]

theorem bumpCount_snoc :
    bumpCount o (log ++ [ev]) = bumpCount o log + if ev.bumps o then 1 else 0 := by
  simp [bumpCount, List.countP_append, List.countP_singleton]

theorem destroyed_snoc : Destroyed o (log ++ [ev]) ↔ Destroyed o log ∨ ev.destroys o = true := by
  simp [Destroyed, or_and_right, exists_or]

theorem minted_snoc : minted (log ++ [ev]) = minted log ++ ev.minted.toList := by
  cases hm : ev.minted <;> simp [minted, List.filterMap_append, hm]

theorem mem_minted_append {log log' : List KernelEvent} {c : Capability} :
    c ∈ minted (log ++ log') ↔ c ∈ minted log ∨ c ∈ minted log' := by
  rw [minted, List.filterMap_append, List.mem_append]
  rfl

end Counts

namespace Ledger
variable {log : List KernelEvent} {k k' : Kernel} {ev : KernelEvent}

/-- A live capability is for an object that exists, at that object's count of bumps. -/
theorem of_live (h : Ledger log k) {c : Capability} (hl : k.Live c) :
    c.object.val.toNat < allocations log ∧ ¬Destroyed c.object log ∧
      c.epoch = UInt64.ofNat (bumpCount c.object log) := by
  have he := h.epochs c.object
  rw [hl] at he
  by_cases hex : c.object.val.toNat < allocations log ∧ ¬Destroyed c.object log
  · rw [if_pos hex, Option.some.injEq] at he
    exact ⟨hex.1, hex.2, he⟩
  · rw [if_neg hex] at he
    cases he

theorem eq_next_iff (h : Ledger log k) (hf : allocations log < 2 ^ 64) (o : ObjectId) :
    (⟨k.nextId⟩ : ObjectId) = o ↔ o.val.toNat = allocations log := by
  have hn : k.nextId.toNat = allocations log := by
    rw [h.nextId, UInt64.toNat_ofNat', Nat.mod_eq_of_lt hf]
  constructor
  · intro he
    rw [← he, hn]
  · intro ho
    cases o
    rw [ObjectId.mk.injEq, ← UInt64.toNat_inj, hn, ho]

theorem not_destroyed_of_fresh (h : Ledger log k) {o : ObjectId}
    (ho : allocations log ≤ o.val.toNat) : ¬Destroyed o log := by
  intro ⟨ev, hev, hd⟩
  have hk := h.fresh o ho ev hev
  simp [KernelEvent.kills, hd] at hk

theorem bumpCount_of_fresh (h : Ledger log k) {o : ObjectId}
    (ho : allocations log ≤ o.val.toNat) : bumpCount o log = 0 := by
  apply List.countP_eq_zero.mpr
  intro ev hev
  have hk := h.fresh o ho ev hev
  simp only [KernelEvent.kills, Bool.or_eq_false_iff] at hk
  simp [hk.1]

/-- An event that is performed is about an object already allocated. -/
theorem object_lt (h : Ledger log k) (hp : ev.Performed k k') {o : ObjectId}
    (hk : ev.kills o = true) : o.val.toNat < allocations log := by
  cases hp with
  | created r => simp [KernelEvent.kills, KernelEvent.bumps, KernelEvent.destroys] at hk
  | derived _ _ _ => simp [KernelEvent.kills, KernelEvent.bumps, KernelEvent.destroys] at hk
  | revoked live _ | reissued live _ | destroyed live _ =>
    have ho := (h.of_live live).1
    simp only [KernelEvent.kills, KernelEvent.bumps, KernelEvent.destroys, Bool.or_false,
      Bool.false_or, decide_eq_true_eq] at hk
    exact hk ▸ ho

/-- What the new event returns is at the bump count that includes the event itself. -/
theorem minted_performed (h : Ledger log k) (hf : allocations log < 2 ^ 64)
    (hp : ev.Performed k k') {c : Capability} (hm : ev.minted = some c) :
    c.object.val.toNat < allocations (log ++ [ev]) ∧
      c.epoch = UInt64.ofNat (bumpCount c.object (log ++ [ev])) ∧
      ¬Destroyed c.object (log ++ [ev]) := by
  rw [allocations_snoc, bumpCount_snoc, destroyed_snoc]
  cases hp with
  | created r =>
    obtain rfl := Option.some.inj hm
    have ho := (h.eq_next_iff hf ⟨k.nextId⟩).mp rfl
    have hb : bumpCount ⟨k.nextId⟩ log = 0 := h.bumpCount_of_fresh ho.ge
    have hd : ¬Destroyed ⟨k.nextId⟩ log := h.not_destroyed_of_fresh ho.ge
    refine ⟨?_, ?_, ?_⟩
    · simp [Kernel.newObject, KernelEvent.isCreation, ho]
    · simp [Kernel.newObject, KernelEvent.bumps, hb]
    · simpa [Kernel.newObject, KernelEvent.destroys] using hd
  | derived live _ _ =>
    obtain rfl := Option.some.inj hm
    obtain ⟨ho, hd, he⟩ := h.of_live live
    simpa [KernelEvent.isCreation, KernelEvent.bumps, KernelEvent.destroys] using ⟨ho, he, hd⟩
  | revoked _ _ => cases hm
  | reissued live _ =>
    obtain rfl := Option.some.inj hm
    obtain ⟨ho, hd, he⟩ := h.of_live live
    simpa [KernelEvent.isCreation, KernelEvent.bumps, KernelEvent.destroys, he] using ⟨ho, hd⟩
  | destroyed _ _ => cases hm

theorem epochs_performed (h : Ledger log k) (hf : allocations log < 2 ^ 64)
    (hp : ev.Performed k k') (o : ObjectId) : k'.epochs[o]? =
    if o.val.toNat < allocations (log ++ [ev]) ∧ ¬Destroyed o (log ++ [ev]) then
      some (UInt64.ofNat (bumpCount o (log ++ [ev]))) else none := by
  simp only [allocations_snoc, bumpCount_snoc, destroyed_snoc]
  cases hp with
  | created r =>
    rw [Kernel.newObject_epochs, h.epochs o]
    by_cases ho : o.val.toNat = allocations log
    · have hb := h.bumpCount_of_fresh ho.ge
      have hd := h.not_destroyed_of_fresh ho.ge
      rw [if_pos ((h.eq_next_iff hf o).mpr ho)]
      simp [KernelEvent.isCreation, KernelEvent.bumps, KernelEvent.destroys, ho, hb, hd]
    · have hlt : o.val.toNat < allocations log + 1 ↔ o.val.toNat < allocations log := by omega
      rw [if_neg fun he => ho ((h.eq_next_iff hf o).mp he)]
      simp [KernelEvent.isCreation, KernelEvent.bumps, KernelEvent.destroys, hlt]
  | derived live _ _ =>
    simpa [KernelEvent.isCreation, KernelEvent.bumps, KernelEvent.destroys] using h.epochs o
  | revoked live _ | reissued live _ =>
    obtain ⟨ho, hd, he⟩ := h.of_live live
    rw [Kernel.bump_epochs, h.epochs o]
    split
    · next heq =>
      subst heq
      simp [KernelEvent.isCreation, KernelEvent.bumps, KernelEvent.destroys, ho, hd, he]
    · next hne => simp [KernelEvent.isCreation, KernelEvent.bumps, KernelEvent.destroys, hne]
  | destroyed live _ =>
    rw [Kernel.remove_epochs, h.epochs o]
    split
    · next heq => simp [KernelEvent.destroys, heq]
    · next hne => simp [KernelEvent.isCreation, KernelEvent.bumps, KernelEvent.destroys, hne]

theorem performed (h : Ledger log k) (hf : allocations log < 2 ^ 64) (hp : ev.Performed k k') :
    Ledger (log ++ [ev]) k' where
  nextId := by
    rw [allocations_snoc]
    cases hp with
    | created r => simp [Kernel.newObject, h.nextId, KernelEvent.isCreation]
    | derived _ _ _ => simpa [KernelEvent.isCreation] using h.nextId
    | revoked _ _ | reissued _ _ | destroyed _ _ => simpa [KernelEvent.isCreation] using h.nextId
  epochs := h.epochs_performed hf hp
  fresh o ho ev' hev := by
    have hle : allocations log ≤ o.val.toNat := by
      rw [allocations_snoc] at ho
      omega
    rcases List.mem_append.mp hev with hev | hev
    · exact h.fresh o hle ev' hev
    · obtain rfl := List.mem_singleton.mp hev
      by_contra hk
      have hlt := h.object_lt hp (Bool.eq_true_of_not_eq_false hk)
      omega
  minted pre e post c hlog hm := by
    rcases List.eq_nil_or_concat post with rfl | ⟨front, last, rfl⟩
    · obtain ⟨rfl, he⟩ := List.append_inj' hlog rfl
      obtain rfl := List.singleton_inj.mp he
      exact h.minted_performed hf hp hm
    · rw [List.concat_eq_append, ← List.cons_append, ← List.append_assoc] at hlog
      obtain ⟨hlog, -⟩ := List.append_inj' hlog rfl
      obtain ⟨ho, he, hd⟩ := h.minted pre e front c hlog hm
      refine ⟨?_, he, hd⟩
      rw [allocations_snoc]
      omega

end Ledger

namespace KernelLog
variable {log : List KernelEvent} {k : Kernel}

theorem snoc_inv {ev : KernelEvent} (h : KernelLog (log ++ [ev]) k) :
    ∃ k₀, KernelLog log k₀ ∧ (∀ c, ev.source = some c → c ∈ Muaddib.minted log) ∧
      ev.Performed k₀ k := by
  generalize hlog : log ++ [ev] = whole at h
  cases h with
  | new => simp at hlog
  | snoc prior source performed =>
    obtain ⟨rfl, he⟩ := List.append_inj' hlog rfl
    obtain rfl := List.singleton_inj.mp he
    exact ⟨_, prior, source, performed⟩

theorem ledger (h : KernelLog log k) (hf : Fits log) : Ledger log k := by
  induction h with
  | new =>
    refine ⟨rfl, ?_, ?_, ?_⟩
    · intro o
      simp [Kernel.new, allocations]
    · intro o _ ev hev
      simp at hev
    · intro pre ev post c hlog
      simp at hlog
  | snoc _ _ performed ih => exact (ih hf.of_append).performed hf.of_append.allocations performed

/-- A capability is live exactly when nothing after the event that returned it was a revocation,
a reissue or the destruction of its object. -/
theorem live_iff (h : KernelLog log k) (hf : Fits log) {pre post : List KernelEvent}
    {ev : KernelEvent} {c : Capability} (hlog : log = pre ++ ev :: post)
    (hm : ev.minted = some c) : k.Live c ↔ ∀ e ∈ post, e.kills c.object = false := by
  have hledger := h.ledger hf
  obtain ⟨ho, he, hd⟩ := hledger.minted pre ev post c hlog hm
  have hcount : bumpCount c.object log =
      bumpCount c.object (pre ++ [ev]) + bumpCount c.object post := by
    rw [hlog, List.append_cons]
    exact List.countP_append ..
  have hbound : bumpCount c.object log < 2 ^ 64 :=
    Nat.lt_of_le_of_lt (bumpCount_le_revocations ..) hf.revocations
  have hdest : Destroyed c.object log ↔ Destroyed c.object post := by
    rw [hlog, List.append_cons]
    constructor
    · rintro ⟨e, hmem, hk⟩
      rcases List.mem_append.mp hmem with hmem | hmem
      · exact absurd ⟨e, hmem, hk⟩ hd
      · exact ⟨e, hmem, hk⟩
    · rintro ⟨e, hmem, hk⟩
      exact ⟨e, List.mem_append_right _ hmem, hk⟩
  have hlive : k.Live c ↔ ¬Destroyed c.object post ∧ bumpCount c.object post = 0 := by
    simp only [Kernel.Live, hledger.epochs, he, hdest]
    by_cases hdp : Destroyed c.object post
    · simp [hdp]
    · simp only [ho, hdp, not_false_eq_true, and_self, if_true, Option.some.injEq, true_and]
      constructor
      · intro heq
        have hn := MachineCounters.ofNat_inj hbound (by omega) heq
        omega
      · intro hz
        rw [hcount, hz, Nat.add_zero]
  rw [hlive, bumpCount, List.countP_eq_zero]
  simp only [Destroyed, not_exists, not_and, KernelEvent.kills, Bool.or_eq_false_iff,
    Bool.not_eq_true]
  exact ⟨fun h e he => ⟨h.2 e he, h.1 e he⟩, fun h => ⟨fun e he => (h e he).2, fun e he => (h e he).1⟩⟩

/-- An event that kills an object ends every capability for it minted before. -/
theorem not_live_of_kills {pre post : List KernelEvent} {ev : KernelEvent} {c : Capability}
    (h : KernelLog (pre ++ ev :: post) k) (hf : Fits (pre ++ ev :: post))
    (hc : c ∈ Muaddib.minted pre) (hk : ev.kills c.object = true) : ¬k.Live c := by
  intro hlive
  obtain ⟨ev', hev', hm⟩ := List.mem_filterMap.mp hc
  obtain ⟨p, q, rfl⟩ := List.append_of_mem hev'
  have hlater := (h.live_iff hf (List.append_assoc p (ev' :: q) (ev :: post)) hm).mp hlive ev
    (List.mem_append_right q List.mem_cons_self)
  rw [hk] at hlater
  cases hlater

end KernelLog
end Muaddib
