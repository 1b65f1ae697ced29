import Muaddib.SystemHistories

/-! # Process ids and handles along a run

Process ids and handles come from counters. While the counters have not wrapped, an id names
one process and a handle of a table is used once. -/
namespace Muaddib
open LabelledRuns

/-- A system without processes and without queued messages, with any kernel and any channels. -/
structure System.Fresh (s : System) : Prop where
  sched : s.sched = .new
  queues : ∀ (o : ObjectId) (queue : List Message), s.channels.queues[o]? = some queue → queue = []

theorem System.fresh_new : System.new.Fresh :=
  ⟨rfl, by simp [System.new, ChannelRegistry.new]⟩

namespace SystemEntry

def isSpawn (e : SystemEntry) : Bool :=
  match e.outcome with
  | .ok (.process _) => true
  | _ => false

/-- The process a call granted capabilities to, and their number. -/
def granted (e : SystemEntry) : Option (ProcessId × ℕ) :=
  match e.call, e.outcome with
  | .spawn initial, .ok (.process id) => some (id, initial.length)
  | .spawnChild _ _, .ok (.process id) => some (id, e.delivered.length)
  | .receive _ receiver, .ok (.delivery (some d)) => some (receiver, d.handles.length)
  | .grant id _, .ok _ => some (id, 1)
  | _, _ => none

/-- The number of capabilities the call granted into process `id`. -/
def grantsInto (id : ProcessId) (e : SystemEntry) : ℕ :=
  match e.granted with
  | some (i, n) => if i = id then n else 0
  | none => 0

end SystemEntry

open SystemEntry

def spawnCount (tr : List SystemEntry) : ℕ := tr.countP isSpawn

/-- The number of capabilities process `id` was granted. -/
def grantCount (id : ProcessId) (tr : List SystemEntry) : ℕ := (tr.map (grantsInto id)).sum

theorem spawnCount_snoc (tr : List SystemEntry) (e : SystemEntry) :
    spawnCount (tr ++ [e]) = spawnCount tr + if e.isSpawn then 1 else 0 := by
  simp [spawnCount, List.countP_append, List.countP_singleton]

theorem grantCount_snoc (id : ProcessId) (tr : List SystemEntry) (e : SystemEntry) :
    grantCount id (tr ++ [e]) = grantCount id tr + e.grantsInto id := by
  simp [grantCount]

/-- No process is granted more capabilities than all processes together. -/
theorem grantCount_le_total (id : ProcessId) (tr : List SystemEntry) :
    grantCount id tr ≤ ((tr.filterMap granted).map Prod.snd).sum := by
  induction tr with
  | nil => exact le_rfl
  | cons e tr ih =>
    have hcons : grantCount id (e :: tr) = e.grantsInto id + grantCount id tr := by
      simp [grantCount]
    rw [hcons]
    cases he : e.granted with
    | none =>
      rw [List.filterMap_cons_none he, grantsInto, he, Nat.zero_add]
      exact ih
    | some x =>
      rw [List.filterMap_cons_some he, List.map_cons, List.sum_cons, grantsInto, he]
      have hle : (if x.1 = id then x.2 else 0) ≤ x.2 := by split <;> omega
      exact Nat.add_le_add hle ih

theorem grantsInto_failed (id : ProcessId) (s s' : System) (call : Call) (e : Stop ApiError) :
    grantsInto id ⟨s, call, .error e, s'⟩ = 0 := by
  cases call <;> rfl

theorem Process.grantAll_bound {p : Process} (caps : List Capability) {n : ℕ}
    (hnext : p.nextHandle = UInt32.ofNat n) (hn : n + caps.length < 2 ^ 32)
    (hp : ∀ h, p.capability h ≠ none → h.val.toNat < n) :
    ∀ h, (p.grantAll caps).2.capability h ≠ none → h.val.toNat < n + caps.length := by
  induction caps generalizing p n with
  | nil => exact hp
  | cons cap caps ih =>
    have hval : p.nextHandle.toNat = n := by
      rw [hnext, UInt32.toNat_ofNat']
      rw [List.length_cons] at hn
      omega
    have hnext' : (p.grant cap).2.nextHandle = UInt32.ofNat (n + 1) := by
      simp [grant, hnext]
    have hgrant : ∀ h, (p.grant cap).2.capability h ≠ none → h.val.toNat < n + 1 := by
      intro h hc
      rw [capability_grant] at hc
      split at hc
      · next heq =>
        rw [← heq]
        change p.nextHandle.toNat < n + 1
        omega
      · have hlt := hp h hc
        omega
    rw [List.length_cons] at hn ⊢
    have hrest := ih hnext' (by omega) hgrant
    intro h hc
    have hlt := hrest h hc
    omega

/-- Process ids are below their counter, and the counter counts the spawns. -/
structure Registered (tr : List SystemEntry) (s : System) : Prop where
  nextId : s.sched.nextProcessId = UInt64.ofNat (spawnCount tr)
  ids : ∀ id p, s.sched.process id = some p → id.val.toNat < spawnCount tr

theorem process_of_fresh {s : System} (h : s.Fresh) (id : ProcessId) :
    s.sched.process id = none := by
  rw [h.sched]
  simp [Scheduler.process, Scheduler.new]

namespace Registered
variable {tr : List SystemEntry} {s s' : System} {call : Call} {outcome : Outcome}

theorem of_fresh (h : s.Fresh) : Registered [] s := by
  refine ⟨by rw [h.sched]; rfl, fun id p hp => ?_⟩
  rw [process_of_fresh h] at hp
  cases hp

theorem unused (h : Registered tr s) (hs : spawnCount tr < 2 ^ 64) :
    s.sched.process ⟨s.sched.nextProcessId⟩ = none := by
  cases hp : s.sched.process ⟨s.sched.nextProcessId⟩ with
  | none => rfl
  | some p =>
    have hlt := h.ids _ p hp
    rw [h.nextId, UInt64.toNat_ofNat', Nat.mod_eq_of_lt hs] at hlt
    omega

theorem replace (h : Registered tr s) {id : ProcessId} {p p' : Process}
    (hp : s.sched.process id = some p) : Registered tr (s.setProcess id p') := by
  refine ⟨h.nextId, fun i q hq => ?_⟩
  change (s.sched.setProcess id p').process i = some q at hq
  rw [process_setProcess] at hq
  split at hq
  · next heq => exact heq ▸ h.ids id p hp
  · exact h.ids i q hq

theorem snoc (h : Registered tr s) {e : SystemEntry} (hspawn : e.isSpawn = false)
    (hsched : s'.sched = s.sched) : Registered (tr ++ [e]) s' := by
  have hcount : spawnCount (tr ++ [e]) = spawnCount tr := by simp [spawnCount_snoc, hspawn]
  constructor
  · rw [hsched, hcount]
    exact h.nextId
  · rw [hsched, hcount]
    exact h.ids

theorem enlist (h : Registered tr s) {e : SystemEntry} (child : Process)
    (hs : spawnCount tr < 2 ^ 64) (hspawn : e.isSpawn = true)
    (hsched : s'.sched = s.sched.freshId.2.enlist ⟨s.sched.nextProcessId⟩ child) :
    Registered (tr ++ [e]) s' := by
  have hcount : spawnCount (tr ++ [e]) = spawnCount tr + 1 := by simp [spawnCount_snoc, hspawn]
  constructor
  · rw [hsched, hcount]
    change s.sched.nextProcessId + 1 = _
    rw [h.nextId, UInt64.ofNat_add]
    rfl
  · intro i q hq
    rw [hcount]
    rw [hsched, process_enlist] at hq
    split at hq
    · next heq =>
      rw [← heq, h.nextId, UInt64.toNat_ofNat', Nat.mod_eq_of_lt hs]
      omega
    · have hlt := h.ids i q hq
      omega

/-- One call keeps the numbering of processes, as long as the counter does not wrap. -/
theorem step (h : Registered tr s) (heffect : Effect s call outcome s')
    (hs : spawnCount (tr ++ [⟨s, call, outcome, s'⟩]) ≤ 2 ^ 64) :
    Registered (tr ++ [⟨s, call, outcome, s'⟩]) s' := by
  have hspawns : isSpawn ⟨s, call, outcome, s'⟩ = true → spawnCount tr < 2 ^ 64 := by
    intro hspawn
    rw [spawnCount_snoc, if_pos hspawn] at hs
    omega
  cases heffect with
  | spawned initial => exact h.enlist _ (hspawns rfl) rfl rfl
  | @spawnedChild parent p batch held resolved =>
    have hparent : Registered tr (s.setProcess parent (p.depart batch)) := h.replace held
    exact hparent.enlist _ (hspawns rfl) rfl rfl
  | sent data held | received held | recorded held | granted cap held =>
    exact (h.replace held).snoc rfl rfl
  | turn =>
    have hturn : Registered tr { s with sched := s.sched.scheduleNext.2 } := by
      refine ⟨(s.sched.scheduleNext_nextProcessId).trans h.nextId, fun i q hq => h.ids i q ?_⟩
      rw [Scheduler.process, s.sched.scheduleNext_processes] at hq
      exact hq
    exact hturn.snoc rfl rfl
  | failed | newObject | newChannel | newRegion | overflowed | derived | revoked | reissued
  | destroyedObject | receivedNothing | read | wrote | inspected | updated | sized
  | destroyedRegion | reclaimed =>
    exact h.snoc rfl rfl

end Registered

/-- Ids and handles are below their counters, and the counters count. -/
structure Numbered (tr : List SystemEntry) (s : System) : Prop extends Registered tr s where
  nextHandle : ∀ id p, s.sched.process id = some p →
    p.nextHandle = UInt32.ofNat (grantCount id tr)
  handles : ∀ id p, s.sched.process id = some p → ∀ h, p.capability h ≠ none →
    h.val.toNat < grantCount id tr
  absent : ∀ id, s.sched.process id = none → grantCount id tr = 0

namespace Numbered
variable {tr : List SystemEntry} {s s' : System} {call : Call} {outcome : Outcome}

theorem of_fresh (h : s.Fresh) : Numbered [] s := by
  refine ⟨.of_fresh h, ?_, ?_, fun _ _ => rfl⟩
  · intro id p hp
    rw [process_of_fresh h] at hp
    cases hp
  · intro id p hp
    rw [process_of_fresh h] at hp
    cases hp

/-- A call that spawns nothing and rewrites at most one process keeps the numbering. -/
theorem rewrite (h : Numbered tr s) {e : SystemEntry} (hreg : Registered (tr ++ [e]) s')
    {id : ProcessId} {p' : Process} (hother : ∀ i, i ≠ id → e.grantsInto i = 0)
    (hnext : p'.nextHandle = UInt32.ofNat (grantCount id tr + e.grantsInto id))
    (hhandles : ∀ a, p'.capability a ≠ none → a.val.toNat < grantCount id tr + e.grantsInto id)
    (hsched : s'.sched = s.sched.setProcess id p') : Numbered (tr ++ [e]) s' := by
  have hprocess : ∀ i, s'.sched.process i = if id = i then some p' else s.sched.process i := by
    intro i
    rw [hsched, process_setProcess]
  refine ⟨hreg, ?_, ?_, ?_⟩
  · intro i q hq
    rw [hprocess] at hq
    rw [grantCount_snoc]
    split at hq
    · next heq =>
      obtain rfl := Option.some.inj hq
      rw [← heq]
      exact hnext
    · next hne =>
      rw [hother i (Ne.symm hne)]
      exact h.nextHandle i q hq
  · intro i q hq a ha
    rw [hprocess] at hq
    rw [grantCount_snoc]
    split at hq
    · next heq =>
      obtain rfl := Option.some.inj hq
      rw [← heq]
      exact hhandles a ha
    · next hne =>
      rw [hother i (Ne.symm hne)]
      exact h.handles i q hq a ha
  · intro i hi
    rw [hprocess] at hi
    split at hi
    · cases hi
    · next hne =>
      rw [grantCount_snoc, hother i (Ne.symm hne), h.absent i hi]

theorem unchanged (h : Numbered tr s) {e : SystemEntry} (hreg : Registered (tr ++ [e]) s')
    (hgrants : ∀ i, e.grantsInto i = 0) (hprocesses : s'.sched.processes = s.sched.processes) :
    Numbered (tr ++ [e]) s' := by
  have hprocess : ∀ i, s'.sched.process i = s.sched.process i := by
    intro i
    rw [Scheduler.process, hprocesses]
    rfl
  have hgrant : ∀ i, grantCount i (tr ++ [e]) = grantCount i tr := by
    intro i
    rw [grantCount_snoc, hgrants i, Nat.add_zero]
  refine ⟨hreg, ?_, ?_, ?_⟩
  · intro i q hq
    rw [hgrant]
    exact h.nextHandle i q (hprocess i ▸ hq)
  · intro i q hq
    rw [hgrant]
    exact h.handles i q (hprocess i ▸ hq)
  · intro i hi
    rw [hgrant]
    exact h.absent i (hprocess i ▸ hi)

/-- A spawn takes the next id, for a process that was granted `caps`. -/
theorem enlist (h : Numbered tr s) {e : SystemEntry} (hreg : Registered (tr ++ [e]) s')
    (caps : List Capability) (child : Process) (hs : spawnCount tr < 2 ^ 64)
    (hinto : ∀ i, e.grantsInto i = if ⟨s.sched.nextProcessId⟩ = i then caps.length else 0)
    (hbound : caps.length < 2 ^ 32) (hnew : child.nextHandle = 0)
    (hempty : ∀ a, child.capability a = none)
    (hsched : s'.sched = s.sched.freshId.2.enlist ⟨s.sched.nextProcessId⟩ (child.grantAll caps).2) :
    Numbered (tr ++ [e]) s' := by
  have hprocess : ∀ i, s'.sched.process i =
      if ⟨s.sched.nextProcessId⟩ = i then some (child.grantAll caps).2 else s.sched.process i := by
    intro i
    rw [hsched, process_enlist]
    rfl
  have hzero := h.absent _ (h.unused hs)
  refine ⟨hreg, ?_, ?_, ?_⟩
  · intro i q hq
    rw [hprocess] at hq
    rw [grantCount_snoc, hinto]
    split at hq
    · next heq =>
      obtain rfl := Option.some.inj hq
      rw [if_pos heq, ← heq, hzero, Process.grantAll_nextHandle, hnew, UInt32.zero_add, Nat.zero_add]
    · next hne =>
      rw [if_neg hne]
      exact h.nextHandle i q hq
  · intro i q hq a ha
    rw [hprocess] at hq
    rw [grantCount_snoc, hinto]
    split at hq
    · next heq =>
      obtain rfl := Option.some.inj hq
      rw [if_pos heq, ← heq, hzero]
      have hfirst : child.nextHandle = UInt32.ofNat 0 := hnew
      exact Process.grantAll_bound caps hfirst (by omega) (by simp [hempty]) a ha
    · next hne =>
      rw [if_neg hne]
      exact h.handles i q hq a ha
  · intro i hi
    rw [hprocess] at hi
    split at hi
    · cases hi
    · next hne => rw [grantCount_snoc, hinto, if_neg hne, h.absent i hi]

theorem replace (h : Numbered tr s) {id : ProcessId} {p p' : Process}
    (hp : s.sched.process id = some p) (hnext : p'.nextHandle = p.nextHandle)
    (hsub : ∀ a, p'.capability a ≠ none → p.capability a ≠ none) :
    Numbered tr (s.setProcess id p') := by
  have hprocess : ∀ i, (s.setProcess id p').sched.process i =
      if id = i then some p' else s.sched.process i := process_setProcess s.sched id p'
  refine ⟨h.toRegistered.replace hp, ?_, ?_, ?_⟩
  · intro i q hq
    rw [hprocess] at hq
    split at hq
    · next heq =>
      obtain rfl := Option.some.inj hq
      rw [hnext, ← heq]
      exact h.nextHandle id p hp
    · exact h.nextHandle i q hq
  · intro i q hq a ha
    rw [hprocess] at hq
    split at hq
    · next heq =>
      obtain rfl := Option.some.inj hq
      rw [← heq]
      exact h.handles id p hp a (hsub a ha)
    · exact h.handles i q hq a ha
  · intro i hi
    rw [hprocess] at hi
    split at hi
    · cases hi
    · exact h.absent i hi

theorem depart_sub {p : Process} {batch : List (Grant × Capability)} {a : Handle}
    (ha : (p.depart batch).capability a ≠ none) : p.capability a ≠ none := by
  rw [Process.capability_depart] at ha
  split at ha
  · exact absurd rfl ha
  · exact ha

/-- One call keeps the numbering, as long as its counters do not wrap. -/
theorem step (h : Numbered tr s) (heffect : Effect s call outcome s')
    (hs : spawnCount (tr ++ [⟨s, call, outcome, s'⟩]) ≤ 2 ^ 64)
    (hg : ∀ i, grantCount i (tr ++ [⟨s, call, outcome, s'⟩]) < 2 ^ 32) :
    Numbered (tr ++ [⟨s, call, outcome, s'⟩]) s' := by
  have hspawns : isSpawn ⟨s, call, outcome, s'⟩ = true → spawnCount tr < 2 ^ 64 := by
    intro hspawn
    rw [spawnCount_snoc, if_pos hspawn] at hs
    omega
  have hinto : ∀ i, grantCount i tr + grantsInto i ⟨s, call, outcome, s'⟩ < 2 ^ 32 := by
    intro i
    rw [← grantCount_snoc]
    exact hg i
  have hreg := h.toRegistered.step heffect hs
  cases heffect with
  | failed call e => exact h.unchanged hreg (fun i => grantsInto_failed i ..) rfl
  | spawned initial =>
    have hlen := hinto ⟨s.sched.nextProcessId⟩
    simp only [grantsInto, granted, if_true] at hlen
    exact h.enlist hreg initial (.new ⟨s.sched.nextProcessId⟩) (hspawns rfl) (fun i => rfl)
      (by omega) rfl (by simp) rfl
  | @spawnedChild parent p batch held resolved =>
    have hlen := hinto ⟨s.sched.nextProcessId⟩
    have hdelivered : ∀ o s', delivered ⟨s, .spawnChild parent (batch.map Prod.fst), o, s'⟩ =
        batch.map deliver := fun o s' => delivered_of_resolved held resolved rfl
    simp only [grantsInto, granted, if_true, hdelivered] at hlen
    have hparent : Numbered tr (s.setProcess parent (p.depart batch)) :=
      h.replace held (p.depart_nextHandle batch) fun a => depart_sub
    refine hparent.enlist hreg (batch.map deliver)
      ((Process.new ⟨s.sched.nextProcessId⟩).recordReceive p.clock.sendEvent.1).2 (hspawns rfl)
      (fun i => ?_) (by omega) rfl (by simp) rfl
    simp only [grantsInto, granted, hdelivered]
    rfl
  | @sent channel sender p queue batch data held live queued resolved =>
    have hsender : Numbered tr (s.setProcess sender (p.depart batch)) :=
      h.replace held (p.depart_nextHandle batch) fun a => depart_sub
    exact hsender.unchanged hreg (fun i => rfl) rfl
  | @received channel receiver p m queue held live queued =>
    have hlen := hinto receiver
    simp only [grantsInto, granted, if_true, Process.grantAll_length] at hlen
    have hnext := h.nextHandle receiver p held
    refine h.rewrite hreg (fun i hi => ?_) ?_ ?_ rfl
    · simp [grantsInto, granted, Ne.symm hi]
    · change (p.grantAll m.capabilities).2.nextHandle = _
      rw [Process.grantAll_nextHandle, hnext]
      simp [grantsInto, granted]
    · simp only [grantsInto, granted, if_true, Process.grantAll_length]
      exact Process.grantAll_bound m.capabilities hnext hlen (h.handles receiver p held)
  | @recorded id p held =>
    have hself : Numbered tr (s.setProcess id p.recordLocalEvent.2) :=
      h.replace held rfl fun a ha => ha
    exact hself.unchanged hreg (fun i => rfl) rfl
  | @granted id p cap held =>
    have hlen := hinto id
    simp only [grantsInto, granted, if_true] at hlen
    have hnext := h.nextHandle id p held
    refine h.rewrite hreg (fun i hi => ?_) ?_ ?_ rfl
    · simp [grantsInto, granted, Ne.symm hi]
    · simp [grantsInto, granted, Process.grant, hnext]
    · simp only [grantsInto, granted, if_true]
      exact Process.grantAll_bound [cap] hnext hlen (h.handles id p held)
  | turn => exact h.unchanged hreg (fun i => rfl) s.sched.scheduleNext_processes
  | newObject | newChannel | newRegion | overflowed | derived | revoked | reissued
  | destroyedObject | receivedNothing | read | wrote | inspected | updated | sized
  | destroyedRegion | reclaimed =>
    exact h.unchanged hreg (fun i => rfl) rfl

/-- Every run from a fresh system is numbered while its counters do not wrap. -/
theorem run {allowed : List SystemEntry → Call → Prop} {s₀ : System}
    (h : Run System.step allowed s₀ tr s) (hfresh : s₀.Fresh) (hs : spawnCount tr ≤ 2 ^ 64)
    (hg : ∀ i, grantCount i tr < 2 ^ 32) : Numbered tr s := by
  induction h with
  | start => exact of_fresh hfresh
  | @call tr s run c ok ih =>
    refine (ih ?_ fun i => ?_).step (s.step_effect c) hs hg
    · rw [spawnCount_snoc] at hs
      omega
    · have hi := hg i
      rw [grantCount_snoc] at hi
      omega

end Numbered
end Muaddib
