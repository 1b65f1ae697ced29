import Muaddib.LabelledRuns
import Muaddib.Schedulers

/-! # Clients that make their own stamps

A client of the clock and process crates keeps clocks of its own beside the processes of its
schedulers, and can hand any stamp it obtained to `record_receive`. A stamp is evidence of what the
processes of a scheduler recorded only when it comes from one of them. -/
namespace Muaddib
open LabelledRuns

/-- What a client owns: the stamps it obtained with the scheduler of the process each comes from, if
it comes from a process. -/
structure ClockWorld where
  kernel : Kernel
  scheds : List Scheduler
  clocks : List (EventClock ProcessId)
  stamps : List (Option ℕ × EventStamp)

/-- What can be asked of a clock. A stamp is named by its position among those obtained. -/
inductive Occurrence where
  | current
  | localEvent
  | sendEvent
  | receiveEvent (sent : ℕ)
  deriving DecidableEq

namespace Occurrence

def events : Occurrence → ℕ
  | .current => 0
  | _ => 1

def onClock (w : ClockWorld) (o : Occurrence) (c : EventClock ProcessId) :
    Option (EventStamp × EventClock ProcessId) :=
  match o with
  | .current => some (c.current, c)
  | .localEvent => some c.localEvent
  | .sendEvent => some c.sendEvent
  | .receiveEvent n => w.stamps[n]?.map fun sent => c.receiveEvent sent.2

/-- `Process::clock` and the three `record_` methods. -/
def onProcess (w : ClockWorld) (o : Occurrence) (p : Process) : Option (EventStamp × Process) :=
  match o with
  | .current => some (p.currentStamp, p)
  | .localEvent => some p.recordLocalEvent
  | .sendEvent => some p.recordSend
  | .receiveEvent n => w.stamps[n]?.map fun sent => p.recordReceive sent.2

theorem onProcess_eq (w : ClockWorld) (o : Occurrence) (p : Process) :
    o.onProcess w p = (o.onClock w p.clock).map fun x => (x.1, { p with clock := x.2 }) := by
  cases o with
  | current => rfl
  | localEvent => rfl
  | sendEvent => rfl
  | receiveEvent n =>
    rw [onProcess, onClock, Option.map_map]
    rfl

end Occurrence

/-- `setKernel` stands for whatever the client does to the kernel in between. -/
inductive ClockCall where
  | newScheduler
  | setKernel (kernel : Kernel)
  | newClock (process : ProcessId)
  | onClock (clock : ℕ) (occurrence : Occurrence)
  | onProcess (sched : ℕ) (process : ProcessId) (occurrence : Occurrence)
  | spawn (sched : ℕ) (initial : List Capability)
  | spawnChild (sched : ℕ) (parent : ProcessId) (grants : List Grant)

inductive ClockResult where
  | done
  | stamp (stamp : EventStamp)
  | process (id : ProcessId)
  | failed

namespace ClockWorld

def start (kernel : Kernel) : ClockWorld := ⟨kernel, [], [], []⟩

def step (w : ClockWorld) : ClockCall → ClockResult × ClockWorld
  | .newScheduler => (.done, { w with scheds := w.scheds ++ [.new] })
  | .setKernel kernel => (.done, { w with kernel })
  | .newClock process => (.done, { w with clocks := w.clocks ++ [.new process] })
  | .onClock i o =>
    match w.clocks[i]?.bind (o.onClock w) with
    | none => (.failed, w)
    | some (stamp, c) => (.stamp stamp, { w with
        clocks := w.clocks.set i c
        stamps := w.stamps ++ [(none, stamp)] })
  | .onProcess k id o =>
    match w.scheds[k]? with
    | none => (.failed, w)
    | some sched =>
      match (sched.process id).bind (o.onProcess w) with
      | none => (.failed, w)
      | some (stamp, p) => (.stamp stamp, { w with
          scheds := w.scheds.set k (sched.setProcess id p)
          stamps := w.stamps ++ [(some k, stamp)] })
  | .spawn k initial =>
    match w.scheds[k]? with
    | none => (.failed, w)
    | some sched =>
      let (id, sched) := sched.spawn initial
      (.process id, { w with scheds := w.scheds.set k sched })
  | .spawnChild k parent grants =>
    match w.scheds[k]? with
    | none => (.failed, w)
    | some sched =>
      match sched.spawnChild w.kernel parent grants with
      | (.error _, sched, kernel) =>
        (.failed, { w with kernel, scheds := w.scheds.set k sched })
      | (.ok id, sched, kernel) =>
        (.process id, { w with kernel, scheds := w.scheds.set k sched })

end ClockWorld

abbrev ClockEntry := Entry ClockWorld ClockCall ClockResult

/-- The events that process `q` recorded by its own clock, none if there is no such process. -/
def Scheduler.recorded (sched : Scheduler) (q : ProcessId) : UInt64 :=
  (sched.process q).elim 0 fun p => p.currentStamp.vector.get q

namespace ClockEntry

def events (e : ClockEntry) : ℕ :=
  match e.call, e.outcome with
  | .onClock _ o, .stamp _ | .onProcess _ _ o, .stamp _ => o.events
  | .spawnChild .., .process _ => 2
  | _, _ => 0

/-- Whether the call spawned a process of scheduler `k`. -/
def spawns (k : ℕ) (e : ClockEntry) : Bool :=
  match e.call, e.outcome with
  | .spawn j _, .process _ | .spawnChild j _ _, .process _ => j == k
  | _, _ => false

/-- A stamp that a process receives comes from a process of its scheduler, or claims at every other
process at most what that process recorded. -/
def Harmless (e : ClockEntry) : Prop :=
  match e.call with
  | .onProcess k id (.receiveEvent n) => ∀ (origin : Option ℕ) (sent : EventStamp), e.before.stamps[n]? = some (origin, sent) →
    origin = some k ∨ ∀ sched : Scheduler, e.before.scheds[k]? = some sched →
      ∀ q : ProcessId, q ≠ id → sent.vector.get q ≤ sched.recorded q
  | _ => True

end ClockEntry

/-- No clock of a process claims more events at a process of the same scheduler than that process
recorded. -/
def ClockWorld.Unforged (w : ClockWorld) : Prop :=
  ∀ (k : ℕ) (sched : Scheduler), w.scheds[k]? = some sched → ∀ (p q : ProcessId) (a b : Process),
    sched.process p = some a → sched.process q = some b →
    a.currentStamp.vector.get q ≤ b.currentStamp.vector.get q

namespace Scheduler

def Backs (sched : Scheduler) (v : VectorClock ProcessId) : Prop := ∀ q, v.get q ≤ sched.recorded q

theorem recorded_of_process {sched : Scheduler} {id : ProcessId} {p : Process}
    (held : sched.process id = some p) (q : ProcessId) (hq : q = id) :
    sched.recorded q = p.clock.vector.get q := by
  rw [Scheduler.recorded, hq, held]
  rfl

/-- The clocks of the processes and the stamps that come from them claim at most what was recorded,
and the ids are below their counter. -/
structure Informed (sched : Scheduler) (spawned : ℕ) (obtained : EventStamp → Prop) : Prop where
  nextId : sched.nextProcessId = UInt64.ofNat spawned
  ids : ∀ id p, sched.process id = some p → id.val.toNat < spawned
  owner : ∀ id p, sched.process id = some p → p.clock.process = id
  clocks : ∀ id p, sched.process id = some p → sched.Backs p.clock.vector
  stamps : ∀ stamp, obtained stamp → sched.Backs stamp.vector

namespace Informed
variable {sched sched' : Scheduler} {n : ℕ} {obtained : EventStamp → Prop} {id : ProcessId}
  {p p' : Process}

theorem start : Informed .new 0 fun _ => False :=
  ⟨rfl, by simp [process, Scheduler.new], by simp [process, Scheduler.new],
    by simp [process, Scheduler.new], nofun⟩

theorem mono (h : Informed sched n obtained) {obtained' : EventStamp → Prop}
    (hsub : ∀ stamp, obtained' stamp → obtained stamp) : Informed sched n obtained' :=
  ⟨h.nextId, h.ids, h.owner, h.clocks, fun stamp hstamp => h.stamps stamp (hsub stamp hstamp)⟩

/-- A process's clock advances: it claims no more at the others than they recorded. -/
theorem record (h : Informed sched n obtained) (held : sched.process id = some p)
    (hid : p'.clock.process = id) (hother : ∀ q, q ≠ id → p'.clock.vector.get q ≤ sched.recorded q)
    (hown : sched.recorded id ≤ p'.clock.vector.get id)
    (hnext : sched'.nextProcessId = sched.nextProcessId)
    (hprocess : ∀ i, sched'.process i = if id = i then some p' else sched.process i) :
    Informed sched' n fun stamp => obtained stamp ∨ stamp.vector = p'.clock.vector := by
  have hrecorded : ∀ q, sched'.recorded q =
      if id = q then p'.clock.vector.get q else sched.recorded q := by
    intro q
    rw [Scheduler.recorded, hprocess]
    split
    · rfl
    · rfl
  have hgrows : ∀ q, sched.recorded q ≤ sched'.recorded q := by
    intro q
    rw [hrecorded]
    split
    · next heq =>
      subst heq
      exact hown
    · exact UInt64.le_refl _
  have hbacks : ∀ v, sched.Backs v → sched'.Backs v := fun v hv q =>
    UInt64.le_trans (hv q) (hgrows q)
  have hself : sched'.Backs p'.clock.vector := by
    intro q
    rw [hrecorded]
    split
    · exact UInt64.le_refl _
    · next hne => exact hother q (Ne.symm hne)
  refine ⟨hnext.trans h.nextId, fun i q hq => ?_, fun i q hq => ?_, fun i q hq => ?_, ?_⟩
  · rw [hprocess] at hq
    split at hq
    · next heq => exact heq ▸ h.ids id p held
    · exact h.ids i q hq
  · rw [hprocess] at hq
    split at hq
    · next heq =>
      obtain rfl := Option.some.inj hq
      exact hid.trans heq
    · exact h.owner i q hq
  · rw [hprocess] at hq
    split at hq
    · obtain rfl := Option.some.inj hq
      exact hself
    · exact hbacks _ (h.clocks i q hq)
  · rintro stamp (hstamp | hstamp)
    · exact hbacks _ (h.stamps stamp hstamp)
    · rw [hstamp]
      exact hself

theorem enter (h : Informed sched n obtained) (hn : n < 2 ^ 64)
    (hclock : p.clock = .new ⟨sched.nextProcessId⟩)
    (hnext : sched'.nextProcessId = sched.nextProcessId + 1)
    (hprocess : ∀ i, sched'.process i =
      if ⟨sched.nextProcessId⟩ = i then some p else sched.process i) :
    Informed sched' (n + 1) obtained := by
  have hval : sched.nextProcessId.toNat = n := by
    rw [h.nextId, UInt64.toNat_ofNat', Nat.mod_eq_of_lt hn]
  have hfree : sched.process ⟨sched.nextProcessId⟩ = none := by
    cases hq : sched.process ⟨sched.nextProcessId⟩ with
    | none => rfl
    | some q =>
      have hlt := h.ids _ q hq
      rw [hval] at hlt
      omega
  have hzero : ∀ q, p.clock.vector.get q = 0 := by
    intro q
    rw [hclock]
    simp [EventClock.new]
  have hrecorded : ∀ q, sched'.recorded q = sched.recorded q := by
    intro q
    rw [Scheduler.recorded, hprocess, Scheduler.recorded]
    split
    · next heq =>
      rw [← heq, hfree]
      exact hzero _
    · rfl
  have hbacks : ∀ v, sched.Backs v → sched'.Backs v := fun v hv q => by
    rw [hrecorded]
    exact hv q
  refine ⟨?_, fun i q hq => ?_, fun i q hq => ?_, fun i q hq => ?_, fun stamp hstamp => ?_⟩
  · rw [hnext, h.nextId, UInt64.ofNat_add]
    rfl
  · rw [hprocess] at hq
    split at hq
    · next heq =>
      rw [← heq, hval]
      omega
    · have hlt := h.ids i q hq
      omega
  · rw [hprocess] at hq
    split at hq
    · next heq =>
      obtain rfl := Option.some.inj hq
      rw [hclock, heq]
      rfl
    · exact h.owner i q hq
  · rw [hprocess] at hq
    split at hq
    · obtain rfl := Option.some.inj hq
      intro r
      rw [hzero]
      exact UInt64.zero_le
    · exact hbacks _ (h.clocks i q hq)
  · exact hbacks _ (h.stamps stamp hstamp)

theorem tick (h : Informed sched n obtained) (held : sched.process id = some p)
    {v : VectorClock ProcessId} (hother : ∀ q, q ≠ id → v.get q ≤ sched.recorded q)
    (hown : sched.recorded id ≤ v.get id) (hsmall : (v.get id).toNat + 1 < 2 ^ 64)
    (hid : p'.clock.process = id) (hvector : p'.clock.vector = v.tick id)
    (hnext : sched'.nextProcessId = sched.nextProcessId)
    (hprocess : ∀ i, sched'.process i = if id = i then some p' else sched.process i) :
    Informed sched' n fun stamp => obtained stamp ∨ stamp.vector = p'.clock.vector := by
  refine h.record held hid (fun q hq => ?_) ?_ hnext hprocess
  · rw [hvector, VectorClock.get_tick, if_neg (Ne.symm hq)]
    exact hother q hq
  · rw [hvector, VectorClock.get_tick, if_pos rfl]
    refine UInt64.le_trans hown (UInt64.le_iff_toNat_le.mpr ?_)
    rw [MachineCounters.toNat_add_one hsmall]
    omega

theorem depart (h : Informed sched n obtained) (held : sched.process id = some p)
    (hsmall : (p.clock.vector.get id).toNat + 1 < 2 ^ 64) (batch : List (Grant × Capability)) :
    Informed (sched.setProcess id (p.depart batch)) n fun stamp =>
      obtained stamp ∨ stamp.vector = (p.depart batch).clock.vector := by
  have howner := h.owner id p held
  refine h.tick held (fun q _ => h.clocks id p held q)
    (UInt64.le_of_eq (recorded_of_process held id rfl)) hsmall ?_ ?_ rfl
    (process_setProcess sched id (p.depart batch))
  · rw [p.depart_clock batch]
    exact howner
  · rw [p.depart_clock batch, ← howner]
    rfl

/-- A process is born: it enters with a new clock, which receives a stamp of its scheduler. -/
theorem birth (h : Informed sched n obtained) (hn : n < 2 ^ 64) {sent : EventStamp}
    (hsent : obtained sent) (hsmall : (sent.vector.get ⟨sched.nextProcessId⟩).toNat + 1 < 2 ^ 64)
    (caps : List Capability) : Informed (sched.freshId.2.enlist ⟨sched.nextProcessId⟩
      (newborn ⟨sched.nextProcessId⟩ sent caps)) (n + 1) obtained := by
  let child : ProcessId := ⟨sched.nextProcessId⟩
  have hentered : Informed (sched.freshId.2.enlist child (.new child)) (n + 1) obtained :=
    h.enter hn rfl rfl (process_enlist sched.freshId.2 child (.new child))
  have hheld := (process_enlist sched.freshId.2 child (.new child) child).trans (if_pos rfl)
  have hmerged : ∀ q, ((VectorClock.new).merge sent.vector).get q = sent.vector.get q := by
    intro q
    rw [VectorClock.get_merge, VectorClock.get_new, MachineCounters.zero_max]
  have hclock : (newborn child sent caps).clock = ((EventClock.new child).receiveEvent sent).2 :=
    Process.grantAll_clock ..
  have hbacked : ∀ q, ((VectorClock.new).merge sent.vector).get q ≤
      (sched.freshId.2.enlist child (.new child)).recorded q := by
    intro q
    rw [hmerged]
    exact hentered.stamps sent hsent q
  have hzero : (sched.freshId.2.enlist child (.new child)).recorded child ≤
      ((VectorClock.new).merge sent.vector).get child := by
    rw [recorded_of_process hheld child rfl]
    exact UInt64.zero_le
  have hborn : Informed (sched.freshId.2.enlist child (newborn child sent caps)) (n + 1)
      fun stamp => obtained stamp ∨ stamp.vector = (newborn child sent caps).clock.vector := by
    refine hentered.tick hheld (fun q _ => hbacked q) hzero ?_ ?_ ?_ rfl fun i => ?_
    · rwa [hmerged]
    · rw [hclock]
      rfl
    · rw [hclock]
      rfl
    · rw [process_enlist, process_enlist]
      split <;> rfl
  exact hborn.mono fun stamp hstamp => Or.inl hstamp

end Informed
end Scheduler

def eventCount (tr : List ClockEntry) : ℕ := (tr.map ClockEntry.events).sum

def spawnsIn (k : ℕ) (tr : List ClockEntry) : ℕ := tr.countP (ClockEntry.spawns k)

/-- Every scheduler's clocks and stamps are backed by what its processes recorded, and no counter
anywhere is above the number of events. -/
structure Sound (tr : List ClockEntry) (w : ClockWorld) : Prop where
  informed : ∀ (k : ℕ) (sched : Scheduler), w.scheds[k]? = some sched →
    sched.Informed (spawnsIn k tr) fun stamp => (some k, stamp) ∈ w.stamps
  origins : ∀ (k : ℕ) (stamp : EventStamp), (some k, stamp) ∈ w.stamps → k < w.scheds.length
  fresh : ∀ k, w.scheds.length ≤ k → spawnsIn k tr = 0
  processes : ∀ (k : ℕ) (sched : Scheduler), w.scheds[k]? = some sched →
    ∀ id p, sched.process id = some p → p.clock.vector.Below (eventCount tr)
  clocks : ∀ c ∈ w.clocks, c.vector.Below (eventCount tr)
  stamps : ∀ x ∈ w.stamps, x.2.vector.Below (eventCount tr)

theorem spawnsIn_snoc (k : ℕ) (tr : List ClockEntry) (e : ClockEntry) :
    spawnsIn k (tr ++ [e]) = spawnsIn k tr + if e.spawns k then 1 else 0 := by
  simp [spawnsIn, List.countP_append, List.countP_singleton]

theorem eventCount_snoc (tr : List ClockEntry) (e : ClockEntry) :
    eventCount (tr ++ [e]) = eventCount tr + e.events := by
  simp [eventCount]

/-- What an occurrence does to a clock: it shows it, or it ticks it once, after a merge with a stamp
if it receives one. -/
theorem Occurrence.onClock_cases {w : ClockWorld} {o : Occurrence} {c c' : EventClock ProcessId}
    {stamp : EventStamp} (h : o.onClock w c = some (stamp, c')) :
    stamp.vector = c'.vector ∧ c'.process = c.process ∧ (c' = c ∧ o.events = 0 ∨
      o.events = 1 ∧ ∃ v, c'.vector = v.tick c.process ∧ (v = c.vector ∨
        ∃ (n : ℕ) (origin : Option ℕ) (sent : EventStamp), o = .receiveEvent n ∧
          w.stamps[n]? = some (origin, sent) ∧ v = c.vector.merge sent.vector)) := by
  cases o with
  | current =>
    obtain ⟨rfl, rfl⟩ := Prod.mk.inj (Option.some.inj h)
    exact ⟨rfl, rfl, Or.inl ⟨rfl, rfl⟩⟩
  | localEvent =>
    obtain ⟨rfl, rfl⟩ := Prod.mk.inj (Option.some.inj h)
    exact ⟨rfl, rfl, Or.inr ⟨rfl, c.vector, rfl, Or.inl rfl⟩⟩
  | sendEvent =>
    obtain ⟨rfl, rfl⟩ := Prod.mk.inj (Option.some.inj h)
    exact ⟨rfl, rfl, Or.inr ⟨rfl, c.vector, rfl, Or.inl rfl⟩⟩
  | receiveEvent n =>
    obtain ⟨⟨origin, sent⟩, hsent, heq⟩ := Option.map_eq_some_iff.mp h
    obtain ⟨rfl, rfl⟩ := Prod.mk.inj heq
    exact ⟨rfl, rfl, Or.inr ⟨rfl, _, rfl, Or.inr ⟨n, origin, sent, rfl, hsent, rfl⟩⟩⟩

namespace Sound
variable {tr : List ClockEntry} {w w' : ClockWorld}

theorem start (kernel : Kernel) : Sound [] (.start kernel) := by
  refine ⟨?_, ?_, fun _ _ => rfl, ?_, ?_, ?_⟩ <;> simp [ClockWorld.start]

/-- The clock that an occurrence leaves is within the events, itself counted. -/
theorem below_onClock (h : Sound tr w) {o : Occurrence} {c c' : EventClock ProcessId}
    {stamp : EventStamp} (hc : c.vector.Below (eventCount tr))
    (ho : o.onClock w c = some (stamp, c')) (hbound : eventCount tr + o.events < 2 ^ 64) :
    c'.vector.Below (eventCount tr + o.events) := by
  obtain ⟨-, -, ⟨rfl, hevents⟩ | ⟨hevents, v, hv, hmerge⟩⟩ := Occurrence.onClock_cases ho
  · exact hc.mono (Nat.le_add_right ..)
  · rw [hevents] at hbound ⊢
    rw [hv]
    rcases hmerge with rfl | ⟨n, origin, sent, -, hsent, rfl⟩
    · exact hc.tick hbound _
    · exact (hc.merge (h.stamps _ (List.mem_of_getElem? hsent))).tick hbound _

theorem frame (h : Sound tr w) {e : ClockEntry} (hspawns : ∀ k, e.spawns k = false)
    (hscheds : w'.scheds = w.scheds) (hstamps : w'.stamps = w.stamps)
    (hclocks : ∀ c ∈ w'.clocks, c.vector.Below (eventCount (tr ++ [e]))) :
    Sound (tr ++ [e]) w' := by
  have hcount : ∀ k, spawnsIn k (tr ++ [e]) = spawnsIn k tr := by
    intro k
    simp [spawnsIn_snoc, hspawns]
  have hevents : eventCount tr ≤ eventCount (tr ++ [e]) := by
    rw [eventCount_snoc]
    exact Nat.le_add_right ..
  refine ⟨fun k sched hk => ?_, fun k stamp hstamp => ?_, fun k hk => ?_, fun k sched hk id p hp => ?_,
    hclocks, fun x hx => ?_⟩
  · rw [hscheds] at hk
    rw [hcount, hstamps]
    exact h.informed k sched hk
  · rw [hstamps] at hstamp
    rw [hscheds]
    exact h.origins k stamp hstamp
  · rw [hscheds] at hk
    rw [hcount]
    exact h.fresh k hk
  · rw [hscheds] at hk
    exact (h.processes k sched hk id p hp).mono hevents
  · rw [hstamps] at hx
    exact (h.stamps x hx).mono hevents

/-- One scheduler is replaced, and the client may obtain one stamp, from it or from a clock of its
own. -/
theorem replace (h : Sound tr w) {e : ClockEntry} {k : ℕ} {sched' : Scheduler}
    (obtained : List (Option ℕ × EventStamp)) (hk : k < w.scheds.length)
    (hspawns : ∀ j, j ≠ k → e.spawns j = false)
    (hscheds : w'.scheds = w.scheds.set k sched') (hclocks : w'.clocks = w.clocks)
    (hstamps : w'.stamps = w.stamps ++ obtained) (hfrom : ∀ x ∈ obtained, x.1 = some k)
    (hinformed : sched'.Informed (spawnsIn k (tr ++ [e])) fun stamp => (some k, stamp) ∈ w'.stamps)
    (hprocesses : ∀ id p, sched'.process id = some p →
      p.clock.vector.Below (eventCount (tr ++ [e])))
    (hobtained : ∀ x ∈ obtained, x.2.vector.Below (eventCount (tr ++ [e]))) :
    Sound (tr ++ [e]) w' := by
  have hcount : ∀ j, j ≠ k → spawnsIn j (tr ++ [e]) = spawnsIn j tr := by
    intro j hj
    simp [spawnsIn_snoc, hspawns j hj]
  have hevents : eventCount tr ≤ eventCount (tr ++ [e]) := by
    rw [eventCount_snoc]
    exact Nat.le_add_right ..
  have hlen : w'.scheds.length = w.scheds.length := by rw [hscheds, List.length_set]
  have hget : ∀ (j : ℕ) (sched : Scheduler), w'.scheds[j]? = some sched →
      j = k ∧ sched = sched' ∨ j ≠ k ∧ w.scheds[j]? = some sched := by
    intro j sched hj
    rw [hscheds, List.getElem?_set] at hj
    split at hj
    · next heq => exact Or.inl ⟨heq.symm, (Option.some.inj hj).symm⟩
    · next hne => exact Or.inr ⟨Ne.symm hne, hj⟩
  refine ⟨fun j sched hj => ?_, fun j stamp hstamp => ?_, fun j hj => ?_,
    fun j sched hj id p hp => ?_, fun c hc => ?_, fun x hx => ?_⟩
  · rcases hget j sched hj with ⟨rfl, rfl⟩ | ⟨hne, hj⟩
    · exact hinformed
    · rw [hcount j hne]
      refine (h.informed j sched hj).mono fun stamp hstamp => ?_
      rw [hstamps] at hstamp
      rcases List.mem_append.mp hstamp with hold | hnew
      · exact hold
      · exact absurd (Option.some.inj (hfrom _ hnew)) hne
  · rw [hlen]
    rw [hstamps] at hstamp
    rcases List.mem_append.mp hstamp with hold | hnew
    · exact h.origins j stamp hold
    · rw [Option.some.inj (hfrom _ hnew)]
      exact hk
  · rw [hlen] at hj
    rw [hcount j (by omega)]
    exact h.fresh j hj
  · rcases hget j sched hj with ⟨rfl, rfl⟩ | ⟨-, hj⟩
    · exact hprocesses id p hp
    · exact (h.processes j sched hj id p hp).mono hevents
  · rw [hclocks] at hc
    exact (h.clocks c hc).mono hevents
  · rw [hstamps] at hx
    rcases List.mem_append.mp hx with hold | hnew
    · exact (h.stamps x hold).mono hevents
    · exact hobtained x hnew

theorem newScheduler (h : Sound tr w) :
    Sound (tr ++ [entry ClockWorld.step w .newScheduler]) (w.step .newScheduler).2 := by
  have hcount : ∀ k, spawnsIn k (tr ++ [entry ClockWorld.step w .newScheduler]) = spawnsIn k tr :=
    fun k => spawnsIn_snoc k tr _
  have hevents : eventCount (tr ++ [entry ClockWorld.step w .newScheduler]) = eventCount tr :=
    eventCount_snoc tr _
  have hlast : ∀ (k : ℕ) (sched : Scheduler), (w.scheds ++ [.new])[k]? = some sched →
      w.scheds[k]? = some sched ∨ k = w.scheds.length ∧ sched = .new := by
    intro k sched hk
    rcases Nat.lt_or_ge k w.scheds.length with hlt | hge
    · rw [List.getElem?_append_left hlt] at hk
      exact Or.inl hk
    · rw [List.getElem?_append_right hge, List.getElem?_singleton] at hk
      split at hk
      · exact Or.inr ⟨by omega, (Option.some.inj hk).symm⟩
      · cases hk
  refine ⟨fun k sched hk => ?_, fun k stamp hstamp => ?_, fun k hk => ?_,
    fun k sched hk id p hp => ?_, ?_, ?_⟩
  · rw [hcount]
    rcases hlast k sched hk with hk | ⟨rfl, rfl⟩
    · exact h.informed k sched hk
    · rw [h.fresh _ (Nat.le_refl _)]
      exact Scheduler.Informed.start.mono fun stamp hstamp =>
        absurd (h.origins _ stamp hstamp) (Nat.lt_irrefl _)
  · have hlt := h.origins k stamp hstamp
    change k < (w.scheds ++ [Scheduler.new]).length
    rw [List.length_append]
    omega
  · have hk : (w.scheds ++ [Scheduler.new]).length ≤ k := hk
    rw [List.length_append] at hk
    rw [hcount]
    exact h.fresh k (by omega)
  · rw [hevents]
    rcases hlast k sched hk with hk | ⟨-, rfl⟩
    · exact h.processes k sched hk id p hp
    · simp [Scheduler.process, Scheduler.new] at hp
  · rw [hevents]
    exact h.clocks
  · rw [hevents]
    exact h.stamps

theorem onClock (h : Sound tr w) (i : ℕ) (o : Occurrence)
    (hbound : eventCount (tr ++ [entry ClockWorld.step w (.onClock i o)]) < 2 ^ 64) :
    Sound (tr ++ [entry ClockWorld.step w (.onClock i o)]) (w.step (.onClock i o)).2 := by
  generalize he : entry ClockWorld.step w (.onClock i o) = e at hbound ⊢
  have hspawns : ∀ k, ClockEntry.spawns k e = false := by
    intro k
    rw [← he]
    rfl
  rw [eventCount_snoc] at hbound
  cases hc : w.clocks[i]?.bind (o.onClock w) with
  | none =>
    simp only [ClockWorld.step, hc]
    refine h.frame hspawns rfl rfl fun c hmem => ?_
    rw [eventCount_snoc]
    exact (h.clocks c hmem).mono (Nat.le_add_right ..)
  | some x =>
    obtain ⟨stamp, c'⟩ := x
    obtain ⟨c, hget, ho⟩ := Option.bind_eq_some_iff.mp hc
    have hevents : ClockEntry.events e = o.events := by
      rw [← he]
      simp only [ClockEntry.events, entry, ClockWorld.step, hc]
    rw [hevents] at hbound
    have hbelow := h.below_onClock (h.clocks c (List.mem_of_getElem? hget)) ho hbound
    obtain ⟨hstamp, -⟩ := Occurrence.onClock_cases ho
    have hmono : eventCount tr ≤ eventCount (tr ++ [e]) := by
      rw [eventCount_snoc]
      exact Nat.le_add_right ..
    have hframe : Sound (tr ++ [e]) { w with clocks := w.clocks.set i c' } := by
      refine h.frame hspawns rfl rfl fun d hd => ?_
      rcases List.mem_or_eq_of_mem_set hd with hd | rfl
      · exact (h.clocks d hd).mono hmono
      · rw [eventCount_snoc, hevents]
        exact hbelow
    simp only [ClockWorld.step, hc]
    refine ⟨fun k sched hk => (hframe.informed k sched hk).mono fun st hst => ?_, fun k st hst => ?_,
      hframe.fresh, hframe.processes, hframe.clocks, fun x hx => ?_⟩
    · simpa using hst
    · exact hframe.origins k st (by simpa using hst)
    · rcases List.mem_append.mp hx with hx | hx
      · exact hframe.stamps x hx
      · rw [List.mem_singleton.mp hx, hstamp, eventCount_snoc, hevents]
        exact hbelow

theorem failed (h : Sound tr w) {e : ClockEntry} (hspawns : ∀ k, ClockEntry.spawns k e = false) :
    Sound (tr ++ [e]) w := by
  refine h.frame hspawns rfl rfl fun c hc => (h.clocks c hc).mono ?_
  rw [eventCount_snoc]
  exact Nat.le_add_right ..

theorem onProcess (h : Sound tr w) (k : ℕ) (id : ProcessId) (o : Occurrence)
    (hharmless : ClockEntry.Harmless (entry ClockWorld.step w (.onProcess k id o)))
    (hbound : eventCount (tr ++ [entry ClockWorld.step w (.onProcess k id o)]) < 2 ^ 64) :
    Sound (tr ++ [entry ClockWorld.step w (.onProcess k id o)])
      (w.step (.onProcess k id o)).2 := by
  have hspawns : ∀ j, ClockEntry.spawns j (entry ClockWorld.step w (.onProcess k id o)) = false :=
    fun j => rfl
  generalize he : entry ClockWorld.step w (.onProcess k id o) = e at hharmless hbound hspawns ⊢
  rw [eventCount_snoc] at hbound
  cases hsched : w.scheds[k]? with
  | none =>
    simp only [ClockWorld.step, hsched]
    exact h.failed hspawns
  | some sched =>
    cases hp : (sched.process id).bind (o.onProcess w) with
    | none =>
      simp only [ClockWorld.step, hsched, hp]
      exact h.failed hspawns
    | some x =>
      obtain ⟨stamp, p'⟩ := x
      obtain ⟨p, held, ho⟩ := Option.bind_eq_some_iff.mp hp
      rw [Occurrence.onProcess_eq, Option.map_eq_some_iff] at ho
      obtain ⟨⟨stamp', c'⟩, ho, heq⟩ := ho
      obtain ⟨rfl, rfl⟩ := Prod.mk.inj heq
      have hevents : ClockEntry.events e = o.events := by
        rw [← he]
        simp only [ClockEntry.events, entry, ClockWorld.step, hsched, hp]
      have hinformed := h.informed k sched hsched
      have howner := hinformed.owner id p held
      have hbelow := h.below_onClock (h.processes k sched hsched id p held) ho (hevents ▸ hbound)
      obtain ⟨hstamp, hprocess, hcases⟩ := Occurrence.onClock_cases ho
      have hcount : spawnsIn k (tr ++ [e]) = spawnsIn k tr := by simp [spawnsIn_snoc, hspawns]
      have hset := process_setProcess sched id { p with clock := c' }
      have hnext : (sched.setProcess id { p with clock := c' }).nextProcessId =
        sched.nextProcessId := rfl
      have howner' : ({ p with clock := c' } : Process).clock.process = id := hprocess.trans howner
      have hgot : (sched.setProcess id { p with clock := c' }).Informed (spawnsIn k tr)
          fun st => (some k, st) ∈ w.stamps ∨ st.vector = c'.vector := by
        rcases hcases with ⟨rfl, -⟩ | ⟨hone, v, hv, hmerge⟩
        · exact hinformed.record held howner (fun q _ => hinformed.clocks id p held q)
            (UInt64.le_of_eq (Scheduler.recorded_of_process held id rfl)) hnext hset
        · rw [howner] at hv
          have hv : ({ p with clock := c' } : Process).clock.vector = v.tick id := hv
          have hsmall : (v.get id).toNat + 1 < 2 ^ 64 := by
            have hold := h.processes k sched hsched id p held
            rw [hevents, hone] at hbound
            rcases hmerge with rfl | ⟨n, origin, sent, -, hsent, rfl⟩
            · have hle := hold id
              omega
            · have hsent := h.stamps _ (List.mem_of_getElem? hsent)
              have hle : ((p.clock.vector.merge sent.vector).get id).toNat ≤ eventCount tr :=
                hold.merge hsent id
              omega
          rcases hmerge with rfl | ⟨n, origin, sent, rfl, hsent, rfl⟩
          · exact hinformed.tick held (fun q _ => hinformed.clocks id p held q)
              (UInt64.le_of_eq (Scheduler.recorded_of_process held id rfl)) hsmall howner' hv hnext hset
          · -- a stamp of this scheduler is backed, and any other is so at the other processes
            have hsent' : ∀ q, q ≠ id → sent.vector.get q ≤ sched.recorded q := by
              intro q hq
              rw [← he] at hharmless
              rcases hharmless origin sent hsent with horigin | hbacked
              · rw [horigin] at hsent
                exact hinformed.stamps sent (List.mem_of_getElem? hsent) q
              · exact hbacked sched hsched q hq
            refine hinformed.tick held (fun q hq => ?_) ?_ hsmall howner' hv hnext hset
            · rw [VectorClock.get_merge, UInt64.le_iff_toNat_le, MachineCounters.toNat_max]
              exact Nat.max_le.mpr ⟨UInt64.le_iff_toNat_le.mp (hinformed.clocks id p held q),
                UInt64.le_iff_toNat_le.mp (hsent' q hq)⟩
            · rw [Scheduler.recorded_of_process held id rfl, VectorClock.get_merge, UInt64.le_iff_toNat_le,
                MachineCounters.toNat_max]
              exact Nat.le_max_left ..
      simp only [ClockWorld.step, hsched, hp]
      refine h.replace (k := k) [(some k, stamp')]
        (List.getElem?_eq_some_iff.mp hsched).1 (fun j _ => hspawns j) rfl rfl rfl ?_ ?_ ?_ ?_
      · intro x hx
        rw [List.mem_singleton.mp hx]
      · rw [hcount]
        refine hgot.mono fun st hst => ?_
        rcases List.mem_append.mp hst with hst | hst
        · exact Or.inl hst
        · obtain ⟨-, rfl⟩ := Prod.mk.inj (List.mem_singleton.mp hst)
          exact Or.inr hstamp
      · intro i q hq
        rw [hset] at hq
        rw [eventCount_snoc, hevents]
        split at hq
        · obtain rfl := Option.some.inj hq
          exact hbelow
        · exact (h.processes k sched hsched i q hq).mono (Nat.le_add_right ..)
      · intro x hx
        rw [List.mem_singleton.mp hx, hstamp, eventCount_snoc, hevents]
        exact hbelow

theorem spawn (h : Sound tr w) (k : ℕ) (initial : List Capability)
    (hs : spawnsIn k (tr ++ [entry ClockWorld.step w (.spawn k initial)]) ≤ 2 ^ 64) :
    Sound (tr ++ [entry ClockWorld.step w (.spawn k initial)]) (w.step (.spawn k initial)).2 := by
  generalize he : entry ClockWorld.step w (.spawn k initial) = e at hs ⊢
  have hevents : eventCount (tr ++ [e]) = eventCount tr := by
    rw [← he]
    exact eventCount_snoc tr _
  cases hsched : w.scheds[k]? with
  | none =>
    simp only [ClockWorld.step, hsched]
    refine h.failed fun j => ?_
    rw [← he]
    simp only [ClockEntry.spawns, entry, ClockWorld.step, hsched]
  | some sched =>
    have hspawns : ∀ j, ClockEntry.spawns j e = (k == j) := by
      intro j
      rw [← he]
      simp only [ClockEntry.spawns, entry, ClockWorld.step, hsched]
    have hcount : spawnsIn k (tr ++ [e]) = spawnsIn k tr + 1 := by simp [spawnsIn_snoc, hspawns]
    rw [hcount] at hs
    have hclock := Process.grantAll_clock (.new ⟨sched.nextProcessId⟩) initial
    have hprocess := process_enlist sched.freshId.2 ⟨sched.nextProcessId⟩
      ((Process.new ⟨sched.nextProcessId⟩).grantAll initial).2
    have hinformed := (h.informed k sched hsched).enter hs hclock rfl hprocess
    simp only [ClockWorld.step, hsched]
    refine h.replace (k := k) [] (List.getElem?_eq_some_iff.mp hsched).1
      (fun j hj => ?_) rfl rfl (List.append_nil _).symm (by simp) ?_ ?_ (by simp)
    · rw [hspawns]
      exact beq_false_of_ne (Ne.symm hj)
    · rw [hcount]
      exact hinformed
    · intro i q hq
      rw [hevents]
      have hq := (hprocess i).symm.trans hq
      split at hq
      · obtain rfl := Option.some.inj hq
        rw [hclock]
        exact VectorClock.below_new _
      · exact h.processes k sched hsched i q hq

theorem spawnChild (h : Sound tr w) (k : ℕ) (parent : ProcessId) (grants : List Grant)
    (hs : spawnsIn k (tr ++ [entry ClockWorld.step w (.spawnChild k parent grants)]) ≤ 2 ^ 64)
    (hbound : eventCount (tr ++ [entry ClockWorld.step w (.spawnChild k parent grants)]) < 2 ^ 64) :
    Sound (tr ++ [entry ClockWorld.step w (.spawnChild k parent grants)])
      (w.step (.spawnChild k parent grants)).2 := by
  generalize he : entry ClockWorld.step w (.spawnChild k parent grants) = e at hs hbound ⊢
  cases hsched : w.scheds[k]? with
  | none =>
    simp only [ClockWorld.step, hsched]
    refine h.failed fun j => ?_
    rw [← he]
    simp only [ClockEntry.spawns, entry, ClockWorld.step, hsched]
  | some sched =>
    obtain ⟨hk, hself⟩ := List.getElem?_eq_some_iff.mp hsched
    rcases sched.spawnChild_cases w.kernel parent grants with
      ⟨error, hfail⟩ | ⟨p, batch, held, -, rfl, hok⟩
    · have hfailed : Sound (tr ++ [e]) w := by
        refine h.failed fun j => ?_
        rw [← he]
        simp only [ClockEntry.spawns, entry, ClockWorld.step, hsched, hfail]
      have hset : w.scheds.set k sched = w.scheds := by
        rw [← hself]
        exact List.set_getElem_self hk
      simp only [ClockWorld.step, hsched, hfail, hset]
      exact hfailed
    · have hspawns : ∀ j, ClockEntry.spawns j e = (k == j) := by
        intro j
        rw [← he]
        simp only [ClockEntry.spawns, entry, ClockWorld.step, hsched, hok]
      have hevents : ClockEntry.events e = 2 := by
        rw [← he]
        simp only [ClockEntry.events, entry, ClockWorld.step, hsched, hok]
      have hcount : spawnsIn k (tr ++ [e]) = spawnsIn k tr + 1 := by simp [spawnsIn_snoc, hspawns]
      rw [hcount] at hs
      rw [eventCount_snoc, hevents] at hbound
      have hbelow := h.processes k sched hsched
      have hsent : (p.depart batch).clock.vector.Below (eventCount tr + 1) := by
        rw [p.depart_clock batch]
        exact EventClock.below_sendEvent (hbelow parent p held) (by omega)
      have hsame : p.clock.sendEvent.1.vector = (p.depart batch).clock.vector := by
        rw [p.depart_clock batch]
        rfl
      -- the parent's event, and the child's birth
      have hdeparted := (h.informed k sched hsched).depart held
        (Nat.lt_of_le_of_lt (Nat.succ_le_succ (hbelow parent p held parent)) (by omega)) batch
      have hborn := hdeparted.birth hs (Or.inr hsame)
        (by
          rw [hsame]
          exact Nat.lt_of_le_of_lt (Nat.succ_le_succ (hsent _)) hbound) (batch.map deliver)
      simp only [ClockWorld.step, hsched, hok]
      refine h.replace (k := k) [] hk (fun j hj => ?_) rfl rfl
        (List.append_nil _).symm (by simp) ?_ ?_ (by simp)
      · rw [hspawns]
        exact beq_false_of_ne (Ne.symm hj)
      · rw [hcount]
        exact hborn.mono fun stamp hstamp => Or.inl hstamp
      · intro i q hq
        rw [eventCount_snoc, hevents]
        exact below_recruit hbelow held hbound i q hq

/-- One call of a client keeps the world sound while no counter wraps, if it hands over no stamp that
is not backed. -/
theorem step (h : Sound tr w) (c : ClockCall)
    (hharmless : ClockEntry.Harmless (entry ClockWorld.step w c))
    (hs : ∀ k, spawnsIn k (tr ++ [entry ClockWorld.step w c]) ≤ 2 ^ 64)
    (hbound : eventCount (tr ++ [entry ClockWorld.step w c]) < 2 ^ 64) :
    Sound (tr ++ [entry ClockWorld.step w c]) (w.step c).2 := by
  cases c with
  | newScheduler => exact h.newScheduler
  | setKernel kernel =>
    refine h.frame (fun k => rfl) rfl rfl fun c hc => (h.clocks c hc).mono ?_
    rw [eventCount_snoc]
    exact Nat.le_add_right ..
  | newClock process =>
    refine h.frame (fun k => rfl) rfl rfl fun c hc => ?_
    rcases List.mem_append.mp hc with hc | hc
    · refine (h.clocks c hc).mono ?_
      rw [eventCount_snoc]
      exact Nat.le_add_right ..
    · rw [List.mem_singleton.mp hc]
      exact VectorClock.below_new _
  | onClock i o => exact h.onClock i o hbound
  | onProcess k id o => exact h.onProcess k id o hharmless hbound
  | spawn k initial => exact h.spawn k initial (hs k)
  | spawnChild k parent grants => exact h.spawnChild k parent grants (hs k) hbound

theorem run {allowed : List ClockEntry → ClockCall → Prop} {kernel : Kernel}
    (h : Run ClockWorld.step allowed (.start kernel) tr w)
    (hharmless : ∀ e ∈ tr, ClockEntry.Harmless e) (hs : ∀ k, spawnsIn k tr ≤ 2 ^ 64)
    (hbound : eventCount tr < 2 ^ 64) : Sound tr w := by
  induction h with
  | start => exact start kernel
  | @call tr w run c ok ih =>
    refine (ih ?_ ?_ ?_).step c ?_ hs hbound
    · exact fun e he => hharmless e (List.mem_append_left _ he)
    · intro k
      have hk := hs k
      rw [spawnsIn_snoc] at hk
      omega
    · rw [eventCount_snoc] at hbound
      omega
    · exact hharmless _ (List.mem_append_right _ (List.mem_singleton_self _))

end Sound

/-- While every stamp a process receives comes from a process of its scheduler, or claims at the
other processes no more than they recorded, no clock claims events that were not recorded. -/
theorem knowledge_unforged {allowed : List ClockEntry → ClockCall → Prop} {kernel : Kernel}
    {tr : List ClockEntry} {w : ClockWorld} (h : Run ClockWorld.step allowed (.start kernel) tr w)
    (hharmless : ∀ e ∈ tr, ClockEntry.Harmless e) (hs : ∀ k, spawnsIn k tr ≤ 2 ^ 64)
    (hbound : eventCount tr < 2 ^ 64) : w.Unforged := by
  intro k sched hk p q a b ha hb
  have hinformed := (Sound.run h hharmless hs hbound).informed k sched hk
  have hle := hinformed.clocks p a ha q
  rw [Scheduler.recorded_of_process hb q rfl] at hle
  exact hle

/-- A send and its reception between two processes. -/
theorem knowledge_unforged_reception :
    (final ClockWorld.step (.start .new) [.newScheduler, .spawn 0 [], .spawn 0 [],
      .onProcess 0 ⟨0⟩ .sendEvent, .onProcess 0 ⟨1⟩ (.receiveEvent 0)]).Unforged := by
  let calls : List ClockCall := [.newScheduler, .spawn 0 [], .spawn 0 [],
    .onProcess 0 ⟨0⟩ .sendEvent, .onProcess 0 ⟨1⟩ (.receiveEvent 0)]
  have hrun : Run ClockWorld.step (fun _ _ => True) (.start .new)
      (trace ClockWorld.step (.start .new) calls) (final ClockWorld.step (.start .new) calls) :=
    Run.of_calls fun _ _ => trivial
  refine knowledge_unforged hrun ?_ (fun k => ?_) (by decide +kernel)
  · intro e he
    simp only [calls, trace, List.mem_cons, List.not_mem_nil, or_false] at he
    rcases he with rfl | rfl | rfl | rfl | rfl
    · trivial
    · trivial
    · trivial
    · trivial
    · rintro origin sent hsent
      obtain ⟨rfl, rfl⟩ := Prod.mk.inj (Option.some.inj hsent)
      exact Or.inl rfl
  · exact List.countP_le_length.trans (by decide)

/-- A client makes a clock for process 1, lets it record an event and hands the stamp to process 0:
process 0 claims an event at process 1, which recorded none. -/
theorem knowledge_forged :
    ¬∀ (tr : List ClockEntry) (w : ClockWorld),
      Run ClockWorld.step (fun _ _ => True) (.start .new) tr w → w.Unforged := by
  intro hclaim
  let calls : List ClockCall := [.newScheduler, .spawn 0 [], .spawn 0 [], .newClock ⟨1⟩,
    .onClock 0 .localEvent, .onProcess 0 ⟨0⟩ (.receiveEvent 0)]
  let w := final ClockWorld.step (.start .new) calls
  have hrun : Run ClockWorld.step (fun _ _ => True) (.start .new)
      (trace ClockWorld.step (.start .new) calls) w := Run.of_calls fun _ _ => trivial
  have hunforged := hclaim _ w hrun
  have hzero : (w.scheds[0]?.bind (·.process ⟨0⟩)).map (·.currentStamp.vector.get ⟨1⟩) = some 1 := by
    decide +kernel
  have hone : (w.scheds[0]?.bind (·.process ⟨1⟩)).map (·.currentStamp.vector.get ⟨1⟩) = some 0 := by
    decide +kernel
  obtain ⟨a, ha, hclaimed⟩ := Option.map_eq_some_iff.mp hzero
  obtain ⟨b, hb, hrecorded⟩ := Option.map_eq_some_iff.mp hone
  obtain ⟨sched, hsched, ha⟩ := Option.bind_eq_some_iff.mp ha
  obtain ⟨sched', hsched', hb⟩ := Option.bind_eq_some_iff.mp hb
  obtain rfl := Option.some.inj (hsched.symm.trans hsched')
  have hle := hunforged 0 sched hsched ⟨0⟩ ⟨1⟩ a b ha hb
  rw [hclaimed, hrecorded] at hle
  exact absurd hle (by decide)

end Muaddib
