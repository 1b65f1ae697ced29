import Muaddib.GrantBatches

/-! # Spawning processes and the cooperative round-robin -/
namespace Muaddib
open Std (ExtTreeMap)

inductive ProcessError where
  | unknownProcess (id : ProcessId)
  | grant (error : GrantError)
  deriving DecidableEq, Repr

structure Scheduler where
  processes : ExtTreeMap ProcessId Process
  nextProcessId : UInt64
  readyQueue : List ProcessId
  deriving DecidableEq

namespace Scheduler

def new : Scheduler := ⟨∅, 0, []⟩

def freshId (s : Scheduler) : ProcessId × Scheduler :=
  (⟨s.nextProcessId⟩, { s with nextProcessId := s.nextProcessId + 1 })

def process (s : Scheduler) (id : ProcessId) : Option Process := s.processes[id]?

/-- Writes a process back: the effect of a call through `process_mut`. -/
def setProcess (s : Scheduler) (id : ProcessId) (p : Process) : Scheduler :=
  { s with processes := s.processes.insert id p }

/-- `processes.insert(id, proc)` and `ready_queue.push_back(id)`. -/
def enlist (s : Scheduler) (id : ProcessId) (p : Process) : Scheduler :=
  { s with processes := s.processes.insert id p, readyQueue := s.readyQueue ++ [id] }

/-- Spawns a root process that holds exactly `initial`. -/
def spawn (s : Scheduler) (initial : List Capability) : ProcessId × Scheduler :=
  let (id, s) := s.freshId
  let (_, proc) := (Process.new id).grantAll initial
  (id, s.enlist id proc)

/-- Spawns a child of `parent` that holds exactly the batch `grants`. -/
def spawnChild (s : Scheduler) (kernel : Kernel) (parent : ProcessId) (grants : List Grant) :
    Except (Stop ProcessError) ProcessId × Scheduler × Kernel :=
  match s.process parent with
  | none => (.error (.err (.unknownProcess parent)), s, kernel)
  | some parentProc =>
    match resolveGrants kernel parentProc grants with
    | .error e => (.error (.err (.grant e)), s, kernel)
    | .ok resolved =>
      match applyGrants kernel parentProc grants resolved with
      | (.error message, kernel, parentProc) =>
        (.error (.panic message), s.setProcess parent parentProc, kernel)
      | (.ok delivered, kernel, parentProc) =>
        let (spawnedAt, parentProc) := parentProc.recordSend
        let s := s.setProcess parent parentProc
        let (childId, s) := s.freshId
        let (_, child) := (Process.new childId).recordReceive spawnedAt
        let (_, child) := child.grantAll delivered
        (.ok childId, s.enlist childId child, kernel)

/-- The child a spawn enlists: its birth event receives the parent's stamp, and its table
holds what the batch delivers. -/
def newborn (id : ProcessId) (spawnedAt : EventStamp) (delivered : List Capability) : Process :=
  (((Process.new id).recordReceive spawnedAt).2.grantAll delivered).2

theorem spawnChild_of_resolved {s : Scheduler} {k : Kernel} {parent : ProcessId} {p : Process}
    {batch : List (Grant × Capability)} (hp : s.process parent = some p)
    (hb : Resolved k p batch) :
    s.spawnChild k parent (batch.map Prod.fst) = (.ok ⟨s.nextProcessId⟩,
      (s.setProcess parent (p.depart batch)).freshId.2.enlist ⟨s.nextProcessId⟩
        (newborn ⟨s.nextProcessId⟩ p.clock.sendEvent.1 (batch.map deliver)),
      moveObjects k batch) := by
  have hr : resolveGrants k p (batch.map Prod.fst) = .ok (batch.map Prod.snd) :=
    resolveGrants_eq_ok_iff.mpr ⟨batch, hb, rfl, rfl⟩
  simp only [spawnChild, hp, hr, applyGrants_of_resolved hb, Process.recordSend_takeAll]
  rfl

/-- The two ways `spawnChild` can end. -/
theorem spawnChild_cases (s : Scheduler) (k : Kernel) (parent : ProcessId) (grants : List Grant) :
    (∃ e, s.spawnChild k parent grants = (.error (.err e), s, k)) ∨
      ∃ p batch, s.process parent = some p ∧ Resolved k p batch ∧ grants = batch.map Prod.fst ∧
        s.spawnChild k parent grants = (.ok ⟨s.nextProcessId⟩,
          (s.setProcess parent (p.depart batch)).freshId.2.enlist ⟨s.nextProcessId⟩
            (newborn ⟨s.nextProcessId⟩ p.clock.sendEvent.1 (batch.map deliver)),
          moveObjects k batch) := by
  cases hp : s.process parent with
  | none => exact Or.inl ⟨.unknownProcess parent, by simp [spawnChild, hp]⟩
  | some p =>
    cases hr : resolveGrants k p grants with
    | error e => exact Or.inl ⟨.grant e, by simp [spawnChild, hp, hr]⟩
    | ok resolved =>
      obtain ⟨batch, hb, rfl, rfl⟩ := resolveGrants_eq_ok_iff.mp hr
      exact Or.inr ⟨p, batch, rfl, hb, rfl, spawnChild_of_resolved hp hb⟩

def processCount (s : Scheduler) : ℕ := s.processes.size

/-- Hands the turn to the front of the queue and moves it to the back. -/
def scheduleNext (s : Scheduler) : Option ProcessId × Scheduler :=
  match s.readyQueue with
  | [] => (none, s)
  | id :: rest => (some id, { s with readyQueue := rest ++ [id] })

@[simp] theorem scheduleNext_processes (s : Scheduler) :
    s.scheduleNext.2.processes = s.processes := by
  unfold scheduleNext
  split <;> rfl

@[simp] theorem scheduleNext_nextProcessId (s : Scheduler) :
    s.scheduleNext.2.nextProcessId = s.nextProcessId := by
  unfold scheduleNext
  split <;> rfl

end Scheduler

theorem process_setProcess (s : Scheduler) (id : ProcessId) (p : Process) (i : ProcessId) :
    (s.setProcess id p).process i = if id = i then some p else s.process i :=
  FiniteMaps.getElem?_insert ..

theorem process_enlist (s : Scheduler) (id : ProcessId) (p : Process) (i : ProcessId) :
    (s.enlist id p).process i = if id = i then some p else s.process i :=
  FiniteMaps.getElem?_insert ..

/-- The scheduler after `parent` spawned a child with an accepted batch. -/
def Scheduler.recruit (sched : Scheduler) (parent : ProcessId) (p : Process)
    (batch : List (Grant × Capability)) : Scheduler :=
  (sched.setProcess parent (p.depart batch)).freshId.2.enlist ⟨sched.nextProcessId⟩
    (Scheduler.newborn ⟨sched.nextProcessId⟩ p.clock.sendEvent.1 (batch.map deliver))

section Spawning
variable {sched : Scheduler} {parent : ProcessId} {p : Process} {batch : List (Grant × Capability)}

theorem process_recruit (i : ProcessId) : (sched.recruit parent p batch).process i =
    if ⟨sched.nextProcessId⟩ = i
    then some (Scheduler.newborn ⟨sched.nextProcessId⟩ p.clock.sendEvent.1 (batch.map deliver))
    else if parent = i then some (p.depart batch) else sched.process i := by
  rw [Scheduler.recruit, process_enlist]
  congr 1
  exact process_setProcess ..

theorem below_recruit {n : ℕ}
    (h : ∀ id q, sched.process id = some q → q.clock.vector.Below n)
    (hp : sched.process parent = some p) (hn : n + 2 < 2 ^ 64) (id : ProcessId) (q : Process)
    (hq : (sched.recruit parent p batch).process id = some q) : q.clock.vector.Below (n + 2) := by
  have hsent := EventClock.below_sendEvent (h parent p hp) (by omega)
  rw [process_recruit] at hq
  split at hq
  · rw [← Option.some.inj hq, Scheduler.newborn, Process.grantAll_clock]
    exact EventClock.below_receiveEvent (VectorClock.below_new _) hsent (by omega)
  · split at hq
    · rw [← Option.some.inj hq, Process.depart_clock]
      exact hsent.mono (by omega)
    · exact (h id q hq).mono (by omega)

end Spawning
end Muaddib
