import Muaddib.ChannelHistories
import Muaddib.OwnershipHandoff
import Muaddib.ProcessHistories
import Muaddib.Reachability

/-! # No ambient authority

The processes are split into two groups, and each process acts only with the capabilities of its
own table. What a group can ever get hold of is named in its tables, or in the messages that are
queued on the channels it can get hold of. -/
namespace Muaddib
open LabelledRuns Reachability SystemEntry

/-- An action of a process. Capabilities are named by their handles in its table, and one that is
newly returned goes into the table; what a derivation or a reissue returns may also be dropped. -/
inductive Deed where
  | newObject (rights : Rights)
  | newChannel
  | newRegion (size : ℕ)
  | derive (held : Handle) (requested : Rights) (keep : Bool)
  | revoke (held : Handle)
  | reissue (held : Handle) (keep : Bool)
  | destroyObject (held : Handle)
  | spawnChild (grants : List Grant)
  | send (channel : Handle) (grants : List Grant) (data : Int64)
  | receive (channel : Handle)
  | read (held : Handle) (offset len : ℕ)
  | write (held : Handle) (offset : ℕ) (data : Bytes)
  | inspect (held : Handle) (f : Bytes → Bytes)
  | update (held : Handle) (f : SliceUpdate Bytes)
  | size (held : Handle)
  | destroyRegion (held : Handle)
  | recordLocalEvent

namespace Deed

/-- The call process `id` makes. There is none when the handle names no capability. -/
def call (id : ProcessId) (p : Process) : Deed → Option Call
  | .newObject rights => some (.newObject rights)
  | .newChannel => some .newChannel
  | .newRegion n => some (.newRegion n)
  | .derive held requested _ => (p.capability held).map (.derive · requested)
  | .revoke held => (p.capability held).map .revoke
  | .reissue held _ => (p.capability held).map .reissue
  | .destroyObject held => (p.capability held).map .destroyObject
  | .spawnChild grants => some (.spawnChild id grants)
  | .send channel grants data => (p.capability channel).map (.send · id grants data)
  | .receive channel => (p.capability channel).map (.receive · id)
  | .read held offset len => (p.capability held).map (.read · offset len)
  | .write held offset data => (p.capability held).map (.write · offset data)
  | .inspect held f => (p.capability held).map (.inspect · f)
  | .update held f => (p.capability held).map (.update · f)
  | .size held => (p.capability held).map .size
  | .destroyRegion held => (p.capability held).map .destroyRegion
  | .recordLocalEvent => some (.recordLocalEvent id)

def keeps : Deed → Bool
  | .newObject _ | .newChannel | .newRegion _ => true
  | .derive _ _ keep | .reissue _ keep => keep
  | _ => false

end Deed

/-- The calls of a deed: the call it makes, and the grant of what this returns. -/
def System.calls (s : System) (id : ProcessId) (deed : Deed) : List Call :=
  match (s.sched.process id).bind (deed.call id) with
  | none => []
  | some call =>
    match deed.keeps, (s.step call).1 with
    | true, .ok (.capability cap) => [call, .grant id cap]
    | _, _ => [call]

/-- A step of a run. The scheduler's turns and the reclaiming of regions are no process's deeds. -/
inductive Move where
  | act (id : ProcessId) (deed : Deed)
  | scheduleNext
  | reclaim

/-- A system whose processes are split into two groups. -/
structure Split where
  system : System
  side : ProcessId → Bool

namespace Split

/-- A child that process `id` spawns joins its group. -/
def joins (side : ProcessId → Bool) (id : ProcessId) : Outcome → ProcessId → Bool
  | .ok (.process child) => Function.update side child (side id)
  | _ => side

/-- A call by process `id`. -/
def call (w : Split) (id : ProcessId) (c : Call) : Split :=
  ⟨(w.system.step c).2, joins w.side id (w.system.step c).1⟩

def step (w : Split) : Move → List SystemEntry × Split
  | .act id deed => (trace System.step w.system (w.system.calls id deed),
      (w.system.calls id deed).foldl (fun w c => w.call id c) w)
  | .scheduleNext => ([entry System.step w.system .scheduleNext],
      { w with system := (w.system.step .scheduleNext).2 })
  | .reclaim => ([entry System.step w.system .reclaim],
      { w with system := (w.system.step .reclaim).2 })

def group (w : Split) (g : Bool) : Set ProcessId := {id | w.side id = g}

end Split

abbrev SplitEntry := Entry Split Move (List SystemEntry)

def systemTrace (tr : List SplitEntry) : List SystemEntry := tr.flatMap Entry.outcome

/-- The objects named in the tables of `G`. -/
def System.named (s : System) (G : Set ProcessId) : Set ObjectId :=
  {o | ∃ id ∈ G, ∃ h c, s.table id h = some c ∧ c.object = o}

/-- A message queued on `o` carries a capability for `a`. -/
def System.Passes (s : System) (o a : ObjectId) : Prop :=
  ∃ queue, s.channels.queues[o]? = some queue ∧ ∃ m ∈ queue, ∃ c ∈ m.capabilities, c.object = a

def System.reach (s : System) (G : Set ProcessId) : Set ObjectId :=
  Reachability.reach (s.named G) s.Passes

def Split.reach (w : Split) (g : Bool) : Set ObjectId := w.system.reach (w.group g)

/-- The step changed no object in reach of the group `g`, and no table and no clock in it. -/
structure Split.Untouched (w w' : Split) (g : Bool) : Prop where
  epochs : ∀ o ∈ w.reach g, w'.system.kernel.epochs[o]? = w.system.kernel.epochs[o]?
  bytes : ∀ o ∈ w.reach g, w'.system.memory.regions[o]? = w.system.memory.regions[o]?
  queues : ∀ o ∈ w.reach g, w'.system.channels.queues[o]? = w.system.channels.queues[o]?
  processes : ∀ id p, w.side id = g → w.system.sched.process id = some p →
    w'.side id = g ∧ w'.system.sched.process id = some p

theorem KernelLog.object_lt {log : List KernelEvent} {k : Kernel} (h : KernelLog log k)
    (hbound : allocations log ≤ 2 ^ 64) :
    k.nextId = UInt64.ofNat (allocations log) ∧
      ∀ c ∈ minted log, c.object.val.toNat < allocations log := by
  induction h with
  | new => exact ⟨rfl, by simp [minted]⟩
  | @snoc log k k' ev prior source performed ih =>
    rw [allocations_snoc] at hbound ⊢
    obtain ⟨hnext, hold⟩ := ih (by omega)
    have hsource : ∀ c, ev.source = some c → c.object.val.toNat < allocations log :=
      fun c hc => hold c (source c hc)
    simp only [minted_snoc, List.mem_append]
    cases performed with
    | created r =>
      simp only [KernelEvent.isCreation, if_true] at hbound ⊢
      refine ⟨?_, fun c hc => ?_⟩
      · change k.nextId + 1 = _
        rw [hnext, UInt64.ofNat_add]
        rfl
      · rcases hc with hc | hc
        · have hlt := hold c hc
          omega
        · obtain rfl : (k.newObject r).1 = c := by simpa [KernelEvent.minted, eq_comm] using hc
          change k.nextId.toNat < _
          rw [hnext, UInt64.toNat_ofNat', Nat.mod_eq_of_lt (by omega)]
          omega
    | @derived held r live grant sub | @reissued held live destroy =>
      refine ⟨hnext, fun c hc => ?_⟩
      rcases hc with hc | hc
      · exact hold c hc
      · obtain rfl := List.mem_singleton.mp hc
        exact hsource held rfl
    | revoked live destroy | destroyed live destroy =>
      refine ⟨hnext, fun c hc => ?_⟩
      rcases hc with hc | hc
      · exact hold c hc
      · cases hc

theorem SystemEntry.allocations_kernelEvents (e : SystemEntry) :
    allocations e.kernelEvents ≤ if e.allocates then 1 else 0 := by
  have hbatch : ∀ p grants, allocations (batchEvents p grants) = 0 := by
    intro p grants
    refine List.countP_eq_zero.mpr fun ev hev => ?_
    rcases List.mem_append.mp hev with hev | hev
    all_goals
      obtain ⟨g, -, hg⟩ := List.mem_filterMap.mp hev
      cases g <;> simp [deriveEvent, moveEvent] at hg
      obtain ⟨c, -, rfl⟩ := hg
      simp [KernelEvent.isCreation]
  obtain ⟨before, call, outcome, after⟩ := e
  cases outcome with
  | error stop =>
    cases stop with
    | err e =>
      rw [kernelEvents_failed]
      exact Nat.zero_le _
    | panic message =>
      cases call <;> simp [kernelEvents, allocates, allocations, KernelEvent.isCreation]
  | ok value =>
    cases call with
    | spawnChild source grants | send channel source grants data =>
      simp only [kernelEvents]
      cases before.sched.process source with
      | none => exact Nat.zero_le _
      | some p => exact (hbatch p grants).le.trans (Nat.zero_le _)
    | _ => cases value <;> simp [kernelEvents, allocates, allocations, KernelEvent.isCreation]

theorem allocations_kernelLog (tr : List SystemEntry) :
    allocations (kernelLog tr) ≤ objectCount tr := by
  induction tr with
  | nil => exact Nat.le_refl 0
  | cons e tr ih =>
    have he := e.allocations_kernelEvents
    unfold allocations at he ih ⊢
    rw [kernelLog, List.flatMap_cons, List.countP_append, objectCount, List.countP_cons, Nat.add_comm]
    exact Nat.add_le_add ih he

/-- Capabilities in tables and in queues are for objects that were allocated. -/
theorem SystemRun.object_lt {tr : List SystemEntry} {s : System} (h : SystemRun tr s)
    (hbound : objectCount tr ≤ 2 ^ 64) {c : Capability}
    (hc : s.sched.Holds c ∨ s.channels.Carries c) : c.object.val.toNat < objectCount tr := by
  obtain ⟨hlog, -, hknown⟩ := h.log
  have hle := allocations_kernelLog tr
  have hmem : c ∈ minted (kernelLog tr) := hc.elim (hknown.held c) (hknown.carried c)
  have hlt := (hlog.object_lt (hle.trans hbound)).2 c hmem
  omega

def Call.Own (id : ProcessId) : Call → Prop
  | .spawnChild i _ | .send _ i _ _ | .receive _ i | .recordLocalEvent i | .grant i _ => i = id
  | .spawn _ | .reclaim | .scheduleNext => False
  | _ => True

/-- Process `id` makes a call and has `K` to act on: the objects its group's tables name, those of
the capabilities it uses, and the object the call allocates. A child it spawns is new. -/
structure Acts (s : System) (side : ProcessId → Bool) (id : ProcessId) (K : Set ObjectId)
    (call : Call) (outcome : Outcome) (s' : System) : Prop where
  own : call.Own id
  caps : ∀ c ∈ call.capabilities, c.object ∈ K
  held : ∀ i p h c, side i = side id → s.sched.process i = some p → p.capability h = some c →
    c.object ∈ K
  fresh : allocates ⟨s, call, outcome, s'⟩ = true → ⟨s.kernel.nextId⟩ ∈ K
  unused : isSpawn ⟨s, call, outcome, s'⟩ = true → s.sched.process ⟨s.sched.nextProcessId⟩ = none

/-- The processes of the other group are as they were, and those of the group hold capabilities for
objects of `K` only. -/
structure Grows (s : System) (side : ProcessId → Bool) (g : Bool) (K : Set ObjectId) (s' : System)
    (side' : ProcessId → Bool) : Prop where
  others : ∀ i p, side i ≠ g → s.sched.process i = some p →
    side' i ≠ g ∧ s'.sched.process i = some p
  after : ∀ i p, s'.sched.process i = some p → (side' i = side i ∧ s.sched.process i = some p) ∨
    (side' i = g ∧ ∀ h c, p.capability h = some c → c.object ∈ K)

namespace Acts
variable {s s' : System} {side : ProcessId → Bool} {id : ProcessId} {K : Set ObjectId} {call : Call} {outcome : Outcome}
  {p : Process} {entries : List (Grant × Capability)} {o : ObjectId}

theorem batch (h : Acts s side id K call outcome s') (hp : s.sched.process id = some p)
    (hb : Resolved s.kernel p entries) {x : Grant × Capability} (hx : x ∈ entries) :
    x.2.object ∈ K := by
  obtain ⟨g, c⟩ := x
  have he := hb.entries _ hx
  cases g with
  | transfer a => exact h.held id p a c rfl hp (resolveGrant_transfer_iff.mp he)
  | derive a r =>
    obtain ⟨held, ha, hd⟩ := resolveGrant_derive_iff.mp he
    obtain ⟨-, -, -, rfl⟩ := Kernel.derive_eq_ok_iff.mp hd
    exact h.held id p a held rfl hp ha
  | move a => exact h.held id p a c rfl hp (resolveGrant_move_iff.mp he).1

theorem delivers (h : Acts s side id K call outcome s') (hp : s.sched.process id = some p)
    (hb : Resolved s.kernel p entries) {c : Capability} (hc : c ∈ entries.map deliver) :
    c.object ∈ K := by
  obtain ⟨x, hx, rfl⟩ := List.mem_map.mp hc
  rw [deliver_object]
  exact h.batch hp hb hx

theorem ne (ho : o ∉ K) {a : ObjectId} (ha : a ∈ K) : a ≠ o := fun heq => ho (heq ▸ ha)

theorem moves (h : Acts s side id K call outcome s') (hp : s.sched.process id = some p)
    (hb : Resolved s.kernel p entries) (ho : o ∉ K) :
    (moveObjects s.kernel entries).epochs[o]? = s.kernel.epochs[o]? :=
  moveObjects_epochs_of_notMem fun _ hx _ => ne ho (h.batch hp hb hx)

theorem epochs (h : Acts s side id K call outcome s') (heffect : Effect s call outcome s')
    (ho : o ∉ K) : s'.kernel.epochs[o]? = s.kernel.epochs[o]? := by
  cases heffect with
  | newObject r => exact (s.kernel.newObject_epochs r o).trans (if_neg (ne ho (h.fresh rfl)))
  | newChannel | newRegion | overflowed =>
    exact (s.kernel.newObject_epochs (.READ ||| .WRITE ||| .GRANT ||| .DESTROY) o).trans
      (if_neg (ne ho (h.fresh rfl)))
  | revoked | reissued =>
    exact (Kernel.bump_epochs ..).trans (if_neg (ne ho (h.caps _ List.mem_cons_self)))
  | destroyedObject | destroyedRegion =>
    exact (Kernel.remove_epochs ..).trans (if_neg (ne ho (h.caps _ List.mem_cons_self)))
  | spawnedChild held resolved =>
    obtain rfl := h.own
    exact h.moves held resolved ho
  | sent _ held _ _ resolved =>
    obtain rfl := h.own
    exact h.moves held resolved ho
  | _ => rfl

theorem regions (h : Acts s side id K call outcome s') (heffect : Effect s call outcome s')
    (ho : o ∉ K) : s'.memory.regions[o]? = s.memory.regions[o]? := by
  cases heffect with
  | newRegion n => exact (FiniteMaps.getElem?_insert ..).trans (if_neg (ne ho (h.fresh rfl)))
  | wrote | updated =>
    exact (FiniteMaps.getElem?_insert ..).trans (if_neg (ne ho (h.caps _ List.mem_cons_self)))
  | destroyedRegion =>
    exact (FiniteMaps.getElem?_erase ..).trans (if_neg (ne ho (h.caps _ List.mem_cons_self)))
  | reclaimed => exact absurd h.own not_false
  | _ => rfl

theorem queues (h : Acts s side id K call outcome s') (heffect : Effect s call outcome s')
    (ho : o ∉ K) : s'.channels.queues[o]? = s.channels.queues[o]? := by
  cases heffect with
  | newChannel => exact (FiniteMaps.getElem?_insert ..).trans (if_neg (ne ho (h.fresh rfl)))
  | sent | received =>
    exact (FiniteMaps.getElem?_insert ..).trans (if_neg (ne ho (h.caps _ List.mem_cons_self)))
  | _ => rfl

/-- Messages queued on the objects of `K` carry capabilities for objects of `K` only. -/
theorem passes (h : Acts s side id K call outcome s') (heffect : Effect s call outcome s')
    (hclosed : ∀ o ∈ K, ∀ a, s.Passes o a → a ∈ K) :
    ∀ o ∈ K, ∀ a, s'.Passes o a → a ∈ K := by
  have hinsert : ∀ (c : ObjectId) (queue : List Message),
      (∀ m ∈ queue, ∀ a ∈ m.capabilities, a.object ∈ K) →
      s'.channels.queues = s.channels.queues.insert c queue → ∀ o ∈ K, ∀ a, s'.Passes o a → a ∈ K := by
    rintro c queue hqueue hs' o ho a ⟨l, hl, m, hm, d, hd, rfl⟩
    rw [hs', FiniteMaps.getElem?_insert] at hl
    split at hl
    · obtain rfl := Option.some.inj hl
      exact hqueue m hm d hd
    · exact hclosed o ho _ ⟨l, hl, m, hm, d, hd, rfl⟩
  cases heffect with
  | newChannel => exact hinsert _ [] (by simp) rfl
  | @sent channel sender p queue entries data held live queued resolved =>
    obtain rfl := h.own
    refine hinsert channel.object _ (fun m hm a ha => ?_) rfl
    rcases List.mem_append.mp hm with hm | hm
    · exact hclosed channel.object (h.caps _ List.mem_cons_self) _ ⟨queue, queued, m, hm, a, ha, rfl⟩
    · obtain rfl := List.mem_singleton.mp hm
      exact h.delivers held resolved ha
  | @received channel receiver p m queue held live queued =>
    refine hinsert channel.object queue (fun m' hm' a ha => ?_) rfl
    exact hclosed channel.object (h.caps _ List.mem_cons_self) _
      ⟨_, queued, m', List.mem_cons_of_mem m hm', a, ha, rfl⟩
  | _ => exact hclosed

private theorem rewrite (p' : Process) (hp' : ∀ h c, p'.capability h = some c → c.object ∈ K)
    (hsched : ∀ i, s'.sched.process i = if id = i then some p' else s.sched.process i) :
    Grows s side (side id) K s' side := by
  refine ⟨fun i q hi hq => ⟨hi, ?_⟩, fun i q hq => ?_⟩
  · have hne : id ≠ i := fun heq => hi (heq ▸ rfl)
    rw [hsched, if_neg hne, hq]
  · rw [hsched] at hq
    split at hq
    · next heq =>
      obtain rfl := Option.some.inj hq
      exact Or.inr ⟨heq ▸ rfl, hp'⟩
    · exact Or.inl ⟨rfl, hq⟩

theorem grows (h : Acts s side id K call outcome s') (heffect : Effect s call outcome s')
    (hclosed : ∀ o ∈ K, ∀ a, s.Passes o a → a ∈ K) :
    Grows s side (side id) K s' (Split.joins side id outcome) := by
  have hsame : s'.sched = s.sched → Grows s side (side id) K s' side := fun heq =>
    ⟨fun i p hi hp => ⟨hi, heq ▸ hp⟩, fun i p hp => Or.inl ⟨rfl, heq ▸ hp⟩⟩
  cases heffect with
  | @spawnedChild parent p entries held resolved => 
    obtain rfl := h.own
    have hdepart : ∀ a c, (p.depart entries).capability a = some c → c.object ∈ K :=
      fun a c hc => h.held parent p a c rfl held (Process.capability_of_depart hc)
    have hchild := h.unused rfl
    obtain ⟨hothers, hafter⟩ : Grows s side (side parent) K (s.setProcess parent (p.depart entries))
        side := rewrite (p.depart entries) hdepart fun i => process_setProcess ..
    refine ⟨fun i q hi hq => ?_, fun i q hq => ?_⟩
    · have hne : i ≠ ⟨s.sched.nextProcessId⟩ := by
        rintro rfl
        cases hchild.symm.trans hq
      obtain ⟨-, hq'⟩ := hothers i q hi hq
      refine ⟨?_, (process_enlist ..).trans ((if_neg (Ne.symm hne)).trans hq')⟩
      rwa [Split.joins, Function.update_of_ne hne]
    · replace hq := (process_enlist ..).symm.trans hq
      split at hq
      · next heq =>
        obtain rfl := Option.some.inj hq
        obtain rfl := heq
        refine Or.inr ⟨Function.update_self .., fun a c hc => ?_⟩
        exact h.delivers held resolved (Scheduler.capability_newborn hc)
      · next hne =>
        rw [Split.joins, Function.update_of_ne (Ne.symm hne)]
        exact hafter i q hq
  | @sent channel sender p queue entries data held live queued resolved =>
    obtain rfl := h.own
    refine rewrite (p.depart entries) (fun a c hc => ?_) fun i => process_setProcess ..
    exact h.held sender p a c rfl held (Process.capability_of_depart hc)
  | @received channel receiver p m queue held live queued =>
    obtain rfl := h.own
    refine rewrite _ (fun a c hc => ?_) fun i => process_setProcess ..
    rw [Process.recordReceive_capability] at hc
    rcases Process.capability_grantAll hc with hc | hc
    · exact h.held receiver p a c rfl held hc
    · exact hclosed channel.object (h.caps _ List.mem_cons_self) _
        ⟨_, queued, m, List.mem_cons_self, c, hc, rfl⟩
  | @recorded i p held =>
    obtain rfl := h.own
    exact rewrite p.recordLocalEvent.2 (fun a c hc => h.held i p a c rfl held hc)
      fun j => process_setProcess ..
  | @granted i p cap held =>
    obtain rfl := h.own
    refine rewrite (p.grant cap).2 (fun a c hc => ?_) fun j => process_setProcess ..
    rw [Process.capability_grant] at hc
    split at hc
    · obtain rfl := Option.some.inj hc
      exact h.caps _ List.mem_cons_self
    · exact h.held i p a c rfl held hc
  | spawned | reclaimed | turn => exact absurd h.own not_false
  | failed | newObject | newChannel | newRegion | overflowed | derived | revoked | reissued
  | destroyedObject | receivedNothing | read | wrote | inspected | updated | sized
  | destroyedRegion => exact hsame rfl

/-- A capability the call returns is for an object of `K`. -/
theorem returned (h : Acts s side id K call outcome s') (heffect : Effect s call outcome s')
    {c : Capability} (hc : SystemEntry.returned ⟨s, call, outcome, s'⟩ = some c) : c.object ∈ K := by
  cases heffect with
  | newObject | newChannel | newRegion =>
    obtain rfl := Option.some.inj hc
    exact h.fresh rfl
  | @derived held | @reissued held =>
    obtain rfl := Option.some.inj hc
    exact h.caps held List.mem_cons_self
  | _ => cases hc

end Acts

namespace Split
variable {w w' w'' : Split} {g : Bool} {K : Set ObjectId} {id : ProcessId}

/-- `K` contains what the tables of the group name, and is closed under queued messages. -/
structure Holds (w : Split) (g : Bool) (K : Set ObjectId) : Prop where
  named : ∀ i p h c, w.side i = g → w.system.sched.process i = some p → p.capability h = some c →
    c.object ∈ K
  passes : ∀ o ∈ K, ∀ a, w.system.Passes o a → a ∈ K

/-- Only `K` and the processes of the group changed. -/
structure Frame (w w' : Split) (g : Bool) (K : Set ObjectId) : Prop where
  epochs : ∀ o ∉ K, w'.system.kernel.epochs[o]? = w.system.kernel.epochs[o]?
  regions : ∀ o ∉ K, w'.system.memory.regions[o]? = w.system.memory.regions[o]?
  queues : ∀ o ∉ K, w'.system.channels.queues[o]? = w.system.channels.queues[o]?
  others : ∀ i p, w.side i ≠ g → w.system.sched.process i = some p →
    w'.side i ≠ g ∧ w'.system.sched.process i = some p
  noOther : ∀ i p, w'.side i ≠ g → w'.system.sched.process i = some p →
    w.side i ≠ g ∧ w.system.sched.process i = some p

theorem Frame.refl (w : Split) (g : Bool) (K : Set ObjectId) : Frame w w g K :=
  ⟨fun _ _ => rfl, fun _ _ => rfl, fun _ _ => rfl, fun _ _ hi hp => ⟨hi, hp⟩,
    fun _ _ hi hp => ⟨hi, hp⟩⟩

theorem Frame.trans (h : Frame w w' g K) (h' : Frame w' w'' g K) : Frame w w'' g K where
  epochs o ho := (h'.epochs o ho).trans (h.epochs o ho)
  regions o ho := (h'.regions o ho).trans (h.regions o ho)
  queues o ho := (h'.queues o ho).trans (h.queues o ho)
  others i p hi hp := by
    obtain ⟨hi', hp'⟩ := h.others i p hi hp
    exact h'.others i p hi' hp'
  noOther i p hi hp := by
    obtain ⟨hi', hp'⟩ := h'.noOther i p hi hp
    exact h.noOther i p hi' hp'

/-- A call of a group stays within `K`. -/
theorem Holds.call {c : Call} (h : w.Holds (w.side id) K)
    (hacts : Acts w.system w.side id K c (w.system.step c).1 (w.system.step c).2) :
    (w.call id c).Holds (w.side id) K ∧ Frame w (w.call id c) (w.side id) K := by
  have heffect := w.system.step_effect c
  obtain ⟨hothers, hafter⟩ := hacts.grows heffect h.passes
  refine ⟨⟨fun i p a cap hi hp hc => ?_, hacts.passes heffect h.passes⟩,
    fun o => hacts.epochs heffect, fun o => hacts.regions heffect, fun o => hacts.queues heffect,
    hothers, fun i p hi hp => ?_⟩
  · rcases hafter i p hp with ⟨hside, hp⟩ | ⟨-, hK⟩
    · exact h.named i p a cap (hside.symm.trans hi) hp hc
    · exact hK a cap hc
  · rcases hafter i p hp with ⟨hside, hp⟩ | ⟨hside, -⟩
    · exact ⟨fun heq => hi (hside.trans heq), hp⟩
    · exact absurd hside hi

theorem call_side (w : Split) (id : ProcessId) (c : Call) : (w.call id c).side id = w.side id := by
  have hjoins : ∀ outcome, joins w.side id outcome id = w.side id := by
    intro outcome
    unfold joins
    split
    · next child =>
      by_cases h : id = child
      · rw [← h, Function.update_self]
      · rw [Function.update_of_ne h]
    · rfl
  exact hjoins _

end Split

/-- The call of a deed is made by the process, with capabilities of its table. -/
theorem Deed.call_own {id : ProcessId} {p : Process} {deed : Deed} {c : Call}
    (h : deed.call id p = some c) :
    c.Own id ∧ ∀ cap ∈ c.capabilities, ∃ a, p.capability a = some cap := by
  cases deed with
  | newObject | newChannel | newRegion | spawnChild | recordLocalEvent =>
    obtain rfl := Option.some.inj h
    exact ⟨by simp [Call.Own], by simp [Call.capabilities]⟩
  | _ =>
    obtain ⟨held, hheld, rfl⟩ := Option.map_eq_some_iff.mp h
    refine ⟨by simp [Call.Own], fun cap hcap => ?_⟩
    obtain rfl := List.mem_singleton.mp hcap
    exact ⟨_, hheld⟩

/-- A deed makes no call, one call, or a call and the grant of the capability it returned. -/
theorem System.calls_cases (s : System) (id : ProcessId) (deed : Deed) :
    s.calls id deed = [] ∨ ∃ p c, s.sched.process id = some p ∧ deed.call id p = some c ∧
      (s.calls id deed = [c] ∨ ∃ cap, returned (entry System.step s c) = some cap ∧
        s.calls id deed = [c, .grant id cap]) := by
  unfold calls
  cases hp : s.sched.process id with
  | none => exact Or.inl rfl
  | some p =>
    cases hc : deed.call id p with
    | none => exact Or.inl (by simp [hc])
    | some c =>
      refine Or.inr ⟨p, c, rfl, hc, ?_⟩
      simp only [Option.bind_some, hc]
      split
      · next cap _ hcap => exact Or.inr ⟨cap, by simp [SystemEntry.returned, entry, hcap], rfl⟩
      · exact Or.inl rfl

theorem SystemEntry.isSpawn_grant (s : System) (id : ProcessId) (cap : Capability) :
    isSpawn (entry System.step s (.grant id cap)) = false := by
  have heffect := s.step_effect (.grant id cap)
  unfold entry
  generalize (s.step (.grant id cap)).1 = outcome at heffect
  generalize (s.step (.grant id cap)).2 = s' at heffect
  cases heffect <;> rfl

/-- A deed of a group stays within `K`. -/
theorem Split.Holds.act {w : Split} {K : Set ObjectId} {id : ProcessId} {deed : Deed}
    (h : w.Holds (w.side id) K)
    (hfresh : ∀ e ∈ (w.step (.act id deed)).1, e.allocates = true → ⟨w.system.kernel.nextId⟩ ∈ K)
    (hunused : ∀ e ∈ (w.step (.act id deed)).1, e.isSpawn = true →
      w.system.sched.process ⟨w.system.sched.nextProcessId⟩ = none) :
    (w.step (.act id deed)).2.Holds (w.side id) K ∧
      Frame w (w.step (.act id deed)).2 (w.side id) K := by
  rcases w.system.calls_cases id deed with hcalls | ⟨p, c, hp, hc, hcalls⟩
  · simp only [Split.step, hcalls, List.foldl_nil]
    exact ⟨h, .refl w _ K⟩
  · obtain ⟨hown, hcaps⟩ := Deed.call_own hc
    have hfirst : entry System.step w.system c ∈ (w.step (.act id deed)).1 := by
      rcases hcalls with hcalls | ⟨cap, -, hcalls⟩ <;> simp [Split.step, hcalls, trace]
    have hacts : Acts w.system w.side id K c (w.system.step c).1 (w.system.step c).2 := by
      refine ⟨hown, fun cap hcap => ?_, h.named, hfresh _ hfirst, hunused _ hfirst⟩
      obtain ⟨a, ha⟩ := hcaps cap hcap
      exact h.named id p a cap rfl hp ha
    obtain ⟨hholds, hframe⟩ := h.call hacts
    rcases hcalls with hcalls | ⟨cap, hcap, hcalls⟩
    · simp only [Split.step, hcalls, List.foldl_cons, List.foldl_nil]
      exact ⟨hholds, hframe⟩
    · simp only [Split.step, hcalls, List.foldl_cons, List.foldl_nil]
      rw [← w.call_side id c] at hholds
      have hgrant : Acts (w.call id c).system (w.call id c).side id K (.grant id cap)
          ((w.call id c).system.step (.grant id cap)).1
          ((w.call id c).system.step (.grant id cap)).2 := by
        refine ⟨rfl, fun a ha => ?_, hholds.named, fun halloc => ?_, fun hspawn => ?_⟩
        · obtain rfl := List.mem_singleton.mp ha
          exact hacts.returned (w.system.step_effect c) hcap
        · cases halloc
        · cases (isSpawn_grant _ id cap).symm.trans hspawn
      obtain ⟨hholds', hframe'⟩ := hholds.call hgrant
      rw [w.call_side id c] at hholds' hframe'
      exact ⟨hholds', hframe.trans hframe'⟩

theorem SystemRun.deed {tr : List SystemEntry} {s : System} (h : SystemRun tr s) (id : ProcessId)
    (deed : Deed) : SystemRun (tr ++ trace System.step s (s.calls id deed))
      (final System.step s (s.calls id deed)) := by
  rcases s.calls_cases id deed with hcalls | ⟨p, c, hp, hc, hcalls⟩
  · rw [hcalls]
    simpa [trace, final] using h
  · have hok : Authorised tr c := by
      intro cap hcap
      obtain ⟨a, ha⟩ := (Deed.call_own hc).2 cap hcap
      exact h.seen_of_holds ⟨id, p, a, hp, ha⟩
    have hfirst := h.call c hok
    rcases hcalls with hcalls | ⟨cap, hcap, hcalls⟩
    · rw [hcalls]
      exact hfirst
    · have hgrant : Authorised (tr ++ [entry System.step s c]) (.grant id cap) := by
        intro a ha
        obtain rfl := List.mem_singleton.mp ha
        exact ⟨_, List.mem_append_right _ List.mem_cons_self, Or.inl hcap⟩
      rw [hcalls, trace, List.append_cons]
      exact hfirst.call _ hgrant

/-- What a run of deeds does to the system is a run of the system. -/
theorem SystemRun.moves {tr₀ : List SystemEntry} {w₀ w : Split} {tr : List SplitEntry}
    (first : SystemRun tr₀ w₀.system) (run : Run Split.step (fun _ _ => True) w₀ tr w) :
    SystemRun (tr₀ ++ systemTrace tr) w.system := by
  induction run with
  | start => simpa [systemTrace] using first
  | @call tr w run m _ ih =>
    have htrace : systemTrace (tr ++ [entry Split.step w m]) = systemTrace tr ++ (w.step m).1 := by
      simp [systemTrace, entry]
    rw [htrace, ← List.append_assoc]
    cases m with
    | act id deed =>
      have hsystem : (w.step (.act id deed)).2.system =
          final System.step w.system (w.system.calls id deed) := by
        change ((w.system.calls id deed).foldl (fun w c => w.call id c) w).system = _
        generalize w.system.calls id deed = calls
        clear ih run htrace
        induction calls generalizing w with
        | nil => rfl
        | cons c calls ih => exact ih
      rw [hsystem]
      exact ih.deed id deed
    | scheduleNext => exact ih.call .scheduleNext (by simp [Authorised, Call.capabilities])
    | reclaim => exact ih.call .reclaim (by simp [Authorised, Call.capabilities])

section Reach
variable {tr : List SystemEntry} {w w' : Split} {g : Bool} {K : Set ObjectId}

theorem Split.reach_lt (h : SystemRun tr w.system) (hbound : objectCount tr ≤ 2 ^ 64) (g : Bool) :
    ∀ o ∈ w.reach g, o.val.toNat < objectCount tr := by
  refine reach_subset (K := {o : ObjectId | o.val.toNat < objectCount tr}) ?_ ?_
  · rintro o ⟨i, -, a, c, hc, rfl⟩
    obtain ⟨p, hp, hc⟩ := Option.bind_eq_some_iff.mp hc
    exact h.object_lt hbound (Or.inl ⟨i, p, a, hp, hc⟩)
  · rintro o - a ⟨queue, hq, m, hm, c, hc, rfl⟩
    exact h.object_lt hbound (Or.inr ⟨o, queue, hq, m, hm, hc⟩)

/-- Groups that are out of reach of each other stay so under a change within `K`. -/
theorem Split.Frame.disjoint (h : Frame w w' g K) (hholds : w'.Holds g K)
    (hK : Disjoint (w.reach !g) K) : Disjoint (w'.reach !g) (w'.reach g) := by
  refine disjoint_of_frame ?_ hholds.passes ?_ ?_ hK
  · rintro o ⟨i, hi, a, c, hc, rfl⟩
    obtain ⟨p, hp, hc⟩ := Option.bind_eq_some_iff.mp hc
    exact hholds.named i p a c hi hp hc
  · rintro o ⟨i, hi, a, c, hc, rfl⟩
    obtain ⟨p, hp, hc⟩ := Option.bind_eq_some_iff.mp hc
    obtain ⟨hi, hp⟩ := h.noOther i p (Bool.eq_not.mp hi) hp
    exact ⟨i, Bool.eq_not.mpr hi, a, c, Option.bind_eq_some_iff.mpr ⟨p, hp, hc⟩, rfl⟩
  · rintro o ho a ⟨queue, hq, hm⟩
    exact ⟨queue, (h.queues o ho).symm.trans hq, hm⟩

/-- What lies outside of `K` and is not of the group is untouched. -/
theorem Split.Frame.untouched (h : Frame w w' g K) (hK : Disjoint (w.reach !g) K) :
    w.Untouched w' !g where
  epochs o ho := h.epochs o (Set.disjoint_left.mp hK ho)
  bytes o ho := h.regions o (Set.disjoint_left.mp hK ho)
  queues o ho := h.queues o (Set.disjoint_left.mp hK ho)
  processes i p hi hp := by
    obtain ⟨hi', hp'⟩ := h.others i p (Bool.eq_not.mp hi) hp
    exact ⟨Bool.eq_not.mpr hi', hp'⟩

end Reach

/-- What a group reaches and the next object id, if ids have not run out, are a set that the group
can act on and the other group does not reach. -/
theorem Split.holds_reach {tr : List SystemEntry} {w : Split} (h : SystemRun tr w.system)
    (hbound : objectCount tr ≤ 2 ^ 64) (hdisjoint : Disjoint (w.reach true) (w.reach false))
    (g : Bool) : ∃ K, w.Holds g K ∧ Disjoint (w.reach !g) K ∧
      (objectCount tr < 2 ^ 64 → ⟨w.system.kernel.nextId⟩ ∈ K) := by
  have halloc := Allocated.run h hbound
  refine ⟨w.reach g ∪ {o | objectCount tr < 2 ^ 64 ∧ o = ⟨w.system.kernel.nextId⟩},
    ⟨fun i p a c hi hp hc => ?_, ?_⟩, ?_, fun hlt => Or.inr ⟨hlt, rfl⟩⟩
  · exact Or.inl (.root ⟨i, hi, a, c, Option.bind_eq_some_iff.mpr ⟨p, hp, hc⟩, rfl⟩)
  · rintro o (ho | ⟨hlt, rfl⟩) a hpass
    · exact Or.inl (Reach.edge ho hpass)
    · obtain ⟨queue, hq, -⟩ := hpass
      have hused := halloc.queues _ queue hq
      rw [halloc.toNat_nextId hlt] at hused
      omega
  · rw [Set.disjoint_union_right]
    constructor
    · cases g with
      | false => exact hdisjoint
      | true => exact hdisjoint.symm
    · rw [Set.disjoint_left]
      rintro o ho ⟨hlt, rfl⟩
      have hused := Split.reach_lt h hbound (!g) _ ho
      rw [halloc.toNat_nextId hlt] at hused
      omega

theorem Registered.run {allowed : List SystemEntry → Call → Prop} {tr : List SystemEntry}
    {s : System} (h : Run System.step allowed .new tr s) (hbound : spawnCount tr ≤ 2 ^ 64) :
    Registered tr s := by
  induction h with
  | start => exact .of_fresh System.fresh_new
  | @call tr s run c ok ih =>
    have hle : spawnCount tr ≤ spawnCount (tr ++ [entry System.step s c]) := by
      rw [spawnCount_snoc]
      exact Nat.le_add_right ..
    exact (ih (hle.trans hbound)).step (s.step_effect c) hbound

theorem Split.reach_housekeeping (w : Split) (g : Bool) :
    (w.step .scheduleNext).2.reach g = w.reach g ∧ (w.step .reclaim).2.reach g = w.reach g := by
  refine ⟨?_, rfl⟩
  have htable : ∀ id, (w.step .scheduleNext).2.system.sched.process id =
      w.system.sched.process id := by
    intro id
    change w.system.sched.scheduleNext.2.processes[id]? = _
    rw [w.system.sched.scheduleNext_processes]
    rfl
  have hnamed : (w.step .scheduleNext).2.system.named ((w.step .scheduleNext).2.group g) =
      w.system.named (w.group g) := by
    simp only [System.named, System.table, htable]
    rfl
  rw [Split.reach, System.reach, hnamed]
  rfl

theorem Split.step_apart {tr : List SystemEntry} {w : Split} (h : SystemRun tr w.system) (m : Move)
    (objects : objectCount (tr ++ (w.step m).1) ≤ 2 ^ 64)
    (spawns : spawnCount (tr ++ (w.step m).1) ≤ 2 ^ 64)
    (hdisjoint : Disjoint (w.reach true) (w.reach false)) :
    Disjoint ((w.step m).2.reach true) ((w.step m).2.reach false) ∧
      ∀ id deed, m = .act id deed → w.Untouched (w.step m).2 (!w.side id) := by
  unfold objectCount at objects
  unfold spawnCount at spawns
  rw [List.countP_append] at objects spawns
  have hobjects : objectCount tr ≤ 2 ^ 64 := (Nat.le_add_right ..).trans objects
  have hspawns : spawnCount tr ≤ 2 ^ 64 := (Nat.le_add_right ..).trans spawns
  cases m with
  | act id deed =>
    obtain ⟨K, hholds, hK, hfresh⟩ := holds_reach h hobjects hdisjoint (w.side id)
    have hcounts : ∀ (count : SystemEntry → Bool), ∀ e ∈ (w.step (.act id deed)).1,
        count e = true → tr.countP count + (w.step (.act id deed)).1.countP count ≤ 2 ^ 64 →
        tr.countP count < 2 ^ 64 := by
      intro count e he hcount hle
      have hpos := List.countP_pos_iff.mpr ⟨e, he, hcount⟩
      omega
    obtain ⟨hholds', hframe⟩ := hholds.act (fun e he halloc => hfresh (hcounts _ e he halloc objects))
      fun e he hspawn => (Registered.run h hspawns).unused (hcounts _ e he hspawn spawns)
    refine ⟨?_, fun i d heq => ?_⟩
    · have happart := hframe.disjoint hholds' hK
      cases hside : w.side id with
      | false => rwa [hside] at happart
      | true =>
        rw [hside] at happart
        exact happart.symm
    · obtain ⟨rfl, rfl⟩ := Move.act.inj heq
      exact hframe.untouched hK
  | scheduleNext =>
    obtain ⟨htrue, -⟩ := w.reach_housekeeping true
    obtain ⟨hfalse, -⟩ := w.reach_housekeeping false
    exact ⟨by rwa [htrue, hfalse], fun _ _ heq => by cases heq⟩
  | reclaim => exact ⟨hdisjoint, fun _ _ heq => by cases heq⟩

/-- Groups of processes that cannot reach a common object never do, whatever their processes do
with the capabilities they hold, and no process changes anything of the other group. -/
theorem groups_stay_apart {first : List SystemEntry} {w₀ w : Split} {tr : List SplitEntry}
    (reached : SystemRun first w₀.system) (apart : Disjoint (w₀.reach true) (w₀.reach false))
    (run : Run Split.step (fun _ _ => True) w₀ tr w)
    (objects : objectCount (first ++ systemTrace tr) ≤ 2 ^ 64)
    (spawns : spawnCount (first ++ systemTrace tr) ≤ 2 ^ 64) :
    Disjoint (w.reach true) (w.reach false) ∧
      ∀ e ∈ tr, ∀ id deed, e.call = .act id deed → e.before.Untouched e.after !e.before.side id := by
  induction run with
  | start => exact ⟨apart, by simp⟩
  | @call tr w run m _ ih =>
    have htrace : first ++ systemTrace (tr ++ [entry Split.step w m]) =
        (first ++ systemTrace tr) ++ (w.step m).1 := by
      simp [systemTrace, entry]
    rw [htrace] at objects spawns
    have hobjects := objects
    have hspawns := spawns
    unfold objectCount at hobjects
    unfold spawnCount at hspawns
    rw [List.countP_append] at hobjects hspawns
    obtain ⟨hdisjoint, hold⟩ := ih ((Nat.le_add_right ..).trans hobjects)
      ((Nat.le_add_right ..).trans hspawns)
    obtain ⟨hnext, huntouched⟩ := Split.step_apart (reached.moves run) m objects spawns hdisjoint
    refine ⟨hnext, fun e he id deed hm => ?_⟩
    rcases List.mem_append.mp he with he | he
    · exact hold e he id deed hm
    · obtain rfl := List.mem_singleton.mp he
      exact huntouched id deed hm

theorem Split.reach_eq_empty {w : Split} {g : Bool}
    (h : ∀ i a, w.side i = g → w.system.table i a = none) : w.reach g = ∅ := by
  refine Set.subset_empty_iff.mp (reach_subset ?_ fun _ ho => absurd ho (Set.notMem_empty _))
  rintro o ⟨i, hi, a, c, hc, -⟩
  cases (h i a hi).symm.trans hc

private theorem table_bare (i : ProcessId) (a : Handle) :
    (final System.step .new [.spawn [], .spawn []]).table i a = none := by
  change ((((Scheduler.new.freshId.2.enlist ⟨0⟩ (Process.new ⟨0⟩)).freshId.2.enlist ⟨1⟩
    (Process.new ⟨1⟩)).process i).bind fun p => p.capability a) = none
  rw [process_enlist]
  split
  · exact Process.capability_new ..
  · change (((Scheduler.new.freshId.2.enlist ⟨0⟩ (Process.new ⟨0⟩)).process i).bind _) = none
    rw [process_enlist]
    split
    · exact Process.capability_new ..
    · simp [Scheduler.process, Scheduler.new, Scheduler.freshId]

/-- Each process builds a channel or a region of its own, and the second hands its region to a child. -/
theorem groups_stay_apart_spawn :
    let w₀ : Split := ⟨final System.step .new [.spawn [], .spawn []], fun i => i = ⟨0⟩⟩
    let w := final Split.step w₀ [.act ⟨0⟩ .newChannel, .act ⟨1⟩ (.newRegion 4),
      .act ⟨0⟩ (.send ⟨0⟩ [.transfer ⟨0⟩] 7), .act ⟨1⟩ (.spawnChild [.move ⟨0⟩]),
      .act ⟨2⟩ (.write ⟨0⟩ 0 [1, 2]), .act ⟨0⟩ (.receive ⟨0⟩)]
    Disjoint (w.reach true) (w.reach false) ∧
      w.system.table ⟨2⟩ ⟨0⟩ = some ⟨⟨1⟩, .READ ||| .WRITE ||| .GRANT ||| .DESTROY, 1⟩ := by
  intro w₀ w
  have hrun : SystemRun (trace System.step .new [.spawn [], .spawn []]) w₀.system :=
    Run.of_calls (by decide +kernel)
  have hapart : Disjoint (w₀.reach true) (w₀.reach false) := by
    rw [Split.reach_eq_empty (w := w₀) (g := true) fun i a _ => table_bare i a]
    exact Set.empty_disjoint _
  have hgroups := groups_stay_apart hrun hapart (Run.of_calls fun _ _ => trivial) (w := w)
    (by decide +kernel) (by decide +kernel)
  exact ⟨hgroups.1, by decide +kernel⟩

private theorem act_newObject {w : Split} {p : Process}
    (hp : w.system.sched.process ⟨1⟩ = some p) :
    (w.step (.act ⟨1⟩ (.newObject .NONE))).2 = ⟨System.setProcess
      { w.system with kernel := (w.system.kernel.newObject .NONE).2 } ⟨1⟩
      (p.grant ⟨⟨w.system.kernel.nextId⟩, .NONE, 0⟩).2, w.side⟩ := by
  have hcalls : w.system.calls ⟨1⟩ (.newObject .NONE) =
      [.newObject .NONE, .grant ⟨1⟩ ⟨⟨w.system.kernel.nextId⟩, .NONE, 0⟩] := by
    simp only [System.calls, hp]
    rfl
  simp only [Split.step, hcalls, List.foldl_cons, List.foldl_nil, Split.call, System.step,
    System.withProcess]
  rw [show w.system.sched.process ⟨1⟩ = some p from hp]
  rfl

/-- New objects of process 1 advance the id counter, around `2 ^ 64`, and change no other table. -/
private theorem act_newObjects (k : ℕ) (w : Split) (hp : ∃ p, w.system.sched.process ⟨1⟩ = some p) :
    ∃ w' : Split, final Split.step w (List.replicate k (.act ⟨1⟩ (.newObject .NONE))) = w' ∧
      w'.side = w.side ∧ (∃ p, w'.system.sched.process ⟨1⟩ = some p) ∧
      w'.system.sched.process ⟨0⟩ = w.system.sched.process ⟨0⟩ ∧
      w'.system.kernel.nextId = w.system.kernel.nextId + UInt64.ofNat k := by
  induction k generalizing w with
  | zero => exact ⟨w, rfl, rfl, hp, rfl, by simp⟩
  | succ k ih =>
    obtain ⟨p, hp⟩ := hp
    have hstep := act_newObject hp
    obtain ⟨w', hfinal, hside, hlast, hzero, hnext⟩ :=
      ih (w.step (.act ⟨1⟩ (.newObject .NONE))).2 ⟨_, by
        rw [hstep]
        exact (process_setProcess ..).trans (if_pos rfl)⟩
    rw [hstep] at hside hzero hnext
    refine ⟨w', hfinal, hside, hlast, ?_, hnext.trans ?_⟩
    · exact hzero.trans ((process_setProcess ..).trans (if_neg (by decide)))
    · change w.system.kernel.nextId + 1 + _ = _
      rw [UInt64.ofNat_add, UInt64.add_assoc, UInt64.add_comm 1]
      rfl

private theorem table_second {s : Scheduler} {p : Process} (i : ProcessId) (a : Handle) (hi : ⟨0⟩ ≠ i)
    (hs : s.processes = (∅ : Std.ExtTreeMap ProcessId Process).insert ⟨0⟩ p) :
    ((s.enlist ⟨1⟩ (Process.new ⟨1⟩)).process i).bind (fun p => p.capability a) = none := by
  rw [process_enlist]
  split
  · exact Process.capability_new ..
  · rw [Scheduler.process, hs, FiniteMaps.getElem?_insert, if_neg hi]
    simp

/-- Process 1 creates objects until it is given the id of an object of process 0. -/
private theorem groups_meet (k : ℕ) (hk : 1 + UInt64.ofNat k = 0) :
    ∃ (first : List SystemEntry) (w₀ w : Split) (tr : List SplitEntry),
      SystemRun first w₀.system ∧ Disjoint (w₀.reach true) (w₀.reach false) ∧
      Run Split.step (fun _ _ => True) w₀ tr w ∧ ⟨0⟩ ∈ w.reach true ∧ ⟨0⟩ ∈ w.reach false := by
  let calls : List Call := [.newObject .NONE, .spawn [⟨⟨0⟩, .NONE, 0⟩], .spawn []]
  let w₀ : Split := ⟨final System.step .new calls, fun i => i = ⟨0⟩⟩
  have hfirst : SystemRun (trace System.step .new calls) w₀.system :=
    Run.of_calls (by decide +kernel)
  have hone : w₀.system.sched.process ⟨1⟩ = some (Process.new ⟨1⟩) := by decide +kernel
  obtain ⟨w, hfinal, hside, ⟨p, hp⟩, hzero, hnext⟩ := act_newObjects k w₀ ⟨_, hone⟩
  have hnext : w.system.kernel.nextId = 0 := hnext.trans hk
  have hrun : Run Split.step (fun _ _ => True) w₀
      (trace Split.step w₀ (List.replicate k (.act ⟨1⟩ (.newObject .NONE)))) w := by
    rw [← hfinal]
    exact Run.of_calls fun _ _ => trivial
  have hlast := act_newObject hp
  rw [hnext] at hlast
  refine ⟨_, w₀, _, _, hfirst, ?_, hrun.call (.act ⟨1⟩ (.newObject .NONE)) trivial, ?_, ?_⟩
  · have hempty : w₀.reach false = ∅ := by
      refine Split.reach_eq_empty fun i a hi => ?_
      have hi : ⟨0⟩ ≠ i := fun heq => by simp [w₀, heq] at hi
      exact table_second i a hi rfl
    rw [hempty]
    exact Set.disjoint_empty _
  · rw [hlast]
    refine .root ⟨⟨0⟩, congrFun hside ⟨0⟩, ⟨0⟩, ⟨⟨0⟩, .NONE, 0⟩, ?_, rfl⟩
    have hnamed : w₀.system.table ⟨0⟩ ⟨0⟩ = some ⟨⟨0⟩, .NONE, 0⟩ := by decide +kernel
    obtain ⟨q, hq, hcap⟩ := Option.bind_eq_some_iff.mp hnamed
    refine Option.bind_eq_some_iff.mpr ⟨q, ?_, hcap⟩
    exact (process_setProcess ..).trans ((if_neg (by decide)).trans (hzero.trans hq))
  · rw [hlast]
    refine .root ⟨⟨1⟩, congrFun hside ⟨1⟩, ⟨p.nextHandle⟩, ⟨⟨0⟩, .NONE, 0⟩, ?_, rfl⟩
    refine Option.bind_eq_some_iff.mpr ⟨_, (process_setProcess ..).trans (if_pos rfl), ?_⟩
    exact (Process.capability_grant ..).trans (if_pos rfl)

/-- After `2 ^ 64` allocations the id of an object of the first group is given to the second. -/
theorem groups_meet_when_ids_wrap :
    ¬∀ (first : List SystemEntry) (w₀ w : Split) (tr : List SplitEntry),
      SystemRun first w₀.system → Disjoint (w₀.reach true) (w₀.reach false) →
      Run Split.step (fun _ _ => True) w₀ tr w → Disjoint (w.reach true) (w.reach false) := by
  intro hclaim
  obtain ⟨first, w₀, w, tr, hfirst, hapart, hrun, htrue, hfalse⟩ :=
    groups_meet (2 ^ 64 - 1) (by decide +kernel)
  exact Set.disjoint_left.mp (hclaim first w₀ w tr hfirst hapart hrun) htrue hfalse

end Muaddib
