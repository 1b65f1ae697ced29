import Muaddib.KernelPipelines
import Muaddib.SystemHistories

/-! # The kernel pipeline as a client of the system

Whatever the pipeline does to its kernel, scheduler, channels and memory it does through calls on
the four together. The calls are the history that the capabilities ever minted are read off. -/
namespace Muaddib
open LabelledRuns SystemEntry

def KernelPipeline.system (kp : KernelPipeline) : System :=
  ⟨kp.kernel, kp.sched, kp.channels, kp.memory⟩

/-- Work in place that returns nothing, as a call that returns no bytes. -/
def SliceUpdate.quiet (f : SliceUpdate Unit) : SliceUpdate Bytes :=
  ⟨fun bytes => ([], (f.run bytes).2), f.length_eq⟩

namespace KernelPipeline

def capAt (kp : KernelPipeline) (pid : ProcessId) (handle : Option Handle) : Option Capability :=
  handle.bind fun h => (kp.sched.process pid).bind fun p => p.capability h

/-- The calls of the producer's `while let` loop. -/
def drainCalls (input : Capability) (pid : ProcessId) : ℕ → KernelPipeline → List Call
  | 0, _ => []
  | fuel + 1, kp => .receive input pid :: match kp.receive pid input with
    | .ok (some d, kp) =>
      match d.handles with
      | [] => []
      | _ :: _ => drainCalls input pid fuel kp
    | _ => []

def emitCalls (t : Turn) : List Call :=
  if t.stage.nextBatch < t.kp.config.batches then
    match t.stage.freeRegions with
    | [] => []
    | region :: _ =>
      match t.kp.capAt t.stage.pid (some region), t.kp.capAt t.stage.pid t.stage.output with
      | some regionCap, some output =>
        [.update regionCap (fillSlice t.kp.config.seed t.stage.nextBatch).quiet,
          .send output t.stage.pid [.move region] t.stage.nextBatch.toInt64]
      | _, _ => []
  else []

def passOnCalls (t : Turn) : List Call :=
  match t.kp.capAt t.stage.pid t.stage.input with
  | none => []
  | some input => .receive input t.stage.pid :: match t.kp.receive t.stage.pid input with
    | .ok (some d, kp) =>
      match kp.capAt t.stage.pid d.handles.head?, kp.capAt t.stage.pid t.stage.output with
      | some regionCap, some output =>
        [match t.stage.role with
          | .transformer i => .update regionCap (transformSlice i).quiet
          | _ => .inspect regionCap fun _ => [],
          .send output t.stage.pid (d.handles.head?.map Grant.move).toList d.data]
      | _, _ => []
    | _ => []

def turnCalls (fuel : ℕ) (t : Turn) : List Call :=
  match t.stage.role with
  | .supervisor => []
  | .producer =>
    match t.kp.capAt t.stage.pid t.stage.input with
    | none => []
    | some input => drainCalls input t.stage.pid fuel t.kp ++
      match drainReturns input fuel false t with
      | some (.ok (_, t)) => emitCalls t
      | _ => []
  | .transformer _ | .sink => passOnCalls t

end KernelPipeline

/-- The calls take the system from `s` to `s'`, and the kernel sees `events`. -/
structure Plays (s : System) (calls : List Call) (events : List KernelEvent) (s' : System) :
    Prop where
  final : final System.step s calls = s'
  events : kernelLog (trace System.step s calls) = events

namespace Plays
variable {s s' s'' : System} {calls calls' : List Call} {events events' : List KernelEvent}

theorem nil (s : System) : Plays s [] [] s := ⟨rfl, rfl⟩

theorem append (h : Plays s calls events s') (h' : Plays s' calls' events' s'') :
    Plays s (calls ++ calls') (events ++ events') s'' := by
  constructor
  · rw [final_append, h.final, h'.final]
  · rw [trace_append, h.final, kernelLog_append, h.events, h'.events]

theorem single (outcome : Outcome) {call : Call} (h : s.step call = (outcome, s'))
    (hevents : kernelEvents ⟨s, call, outcome, s'⟩ = events) : Plays s [call] events s' := by
  constructor
  · change (s.step call).2 = s'
    rw [h]
  · rw [trace, trace, kernelLog_singleton, entry, h]
    exact hevents

theorem trans_eq (h : Plays s calls events s') (heq : s' = s'') : Plays s calls events s'' := heq ▸ h

theorem cons {call : Call} (h : Plays s [call] events s') (h' : Plays s' calls events' s'') :
    Plays s (call :: calls) (events ++ events') s'' := h.append h'

end Plays

namespace KernelPipeline
variable {kp kp' : KernelPipeline} {pid : ProcessId} {cap : Capability}

theorem plays_receive {d : Option Delivery} (h : kp.receive pid cap = .ok (d, kp')) :
    Plays kp.system [.receive cap pid] [] kp'.system := by
  unfold receive at h
  split at h
  · cases h
  · next p hp =>
    split at h
    · cases h
    · next delivery channels p' hreceive =>
      cases h
      refine Plays.single (.ok (.delivery d)) ?_ rfl
      change kp.system.withProcess pid _ = _
      simp only [System.withProcess, system, hp, hreceive, returning]
      rfl

theorem plays_send {grants : List Grant} {data : Int64} {stamp : EventStamp} {p : Process}
    (hp : kp.sched.process pid = some p) (h : kp.send pid cap grants data = .ok (stamp, kp')) :
    Plays kp.system [.send cap pid grants data] (batchEvents p grants) kp'.system := by
  unfold send at h
  rw [hp] at h
  simp only at h
  split at h
  · cases h
  · cases h
  · next sent channels kernel p' hsend =>
    cases h
    refine Plays.single (.ok (.stamp stamp)) ?_ ?_
    · change kp.system.withProcess pid _ = _
      simp only [System.withProcess, system, hp, hsend, stopping]
      rfl
    · simp only [kernelEvents, system, hp]

theorem plays_update {f : SliceUpdate Unit} (h : kp.updateRegion cap f = .ok kp') :
    Plays kp.system [.update cap f.quiet] [] kp'.system := by
  unfold updateRegion RegionRegistry.update at h
  refine Plays.single (.ok (.bytes [])) ?_ rfl
  simp only [System.step, system, RegionRegistry.update]
  split at h
  · cases h
  · next hupdate =>
    split at hupdate
    · cases hupdate
    · next hcheck =>
      split at hupdate
      · cases hupdate
      · next bytes hbytes =>
        cases hupdate
        cases h
        simp only [returning]
        rfl

theorem plays_inspect {sum : UInt64} (h : kp.inspectRegion cap = .ok sum) :
    Plays kp.system [.inspect cap fun _ => []] [] kp.system := by
  unfold inspectRegion RegionRegistry.inspect at h
  refine Plays.single (.ok (.bytes [])) ?_ rfl
  change (returning .memory .bytes (kp.memory.inspect kp.kernel cap fun _ => []), kp.system) = _
  unfold RegionRegistry.inspect
  split at h
  · cases h
  · next hinspect =>
    split at hinspect
    · cases hinspect
    · next hcheck =>
      split at hinspect
      · cases hinspect
      · next bytes hbytes => simp only [returning]

end KernelPipeline
end Muaddib
