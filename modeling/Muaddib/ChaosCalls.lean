import Muaddib.ChaosBatches

/-! # The calls an operation makes

Every operation of the harness is a few calls on the system. Their trace is what the model mirrors. -/
namespace Muaddib.Chaos
open LabelledRuns

namespace World

/-- The calls on the system that an operation makes in a world. -/
def callsOf (w : World) : Op → Check (List Call)
  | .newRegion p size => do
    let pm ← index w.procs p
    let cap ← unlessPanicked (w.mem.newRegion w.k size).1
    return [.newRegion size, .grant pm.pid cap]
  | .local p => do
    let pm ← index w.procs p
    return [.recordLocalEvent pm.pid]
  | .spawn parent grants => do
    if w.procs.length = maxProcesses then return []
    else
      let concrete ← w.concreteGrants parent grants
      let (_, w) ← w.applyGrantsModel parent concrete
      let channelGrants ← w.channelGrants parent
      let pm ← index w.procs parent
      return [.spawnChild pm.pid (channelGrants ++ toGrants concrete)]
  | .send p channel grants => do
    let concrete ← w.concreteGrants p grants
    let (_, w) ← w.applyGrantsModel p concrete
    let chan ← w.channelCap p channel
    let pm ← index w.procs p
    return [.send chan pm.pid (toGrants concrete) 0]
  | .receive p channel => do
    let chan ← w.channelCap p channel
    let pm ← index w.procs p
    return [.receive chan pm.pid]
  | .read p pick regionsOnly offset len => do
    match ← w.pickCap p pick regionsOnly with
    | none => return []
    | some (cap, _, _) => return [.read cap offset len]
  | .write p pick regionsOnly offset len byte => do
    match ← w.pickCap p pick regionsOnly with
    | none => return []
    | some (cap, _, _) =>
      let data ← vecOf byte len
      return [.write cap offset data]
  | .revoke p pick => do
    match ← w.pickCap p pick true with
    | none => return []
    | some (cap, _, _) => return [.revoke cap]
  | .destroy p pick => do
    match ← w.pickCap p pick true with
    | none => return []
    | some (cap, _, _) => return [.destroyRegion cap]

def calls (w : World) (op : Op) : List Call :=
  match w.callsOf op with
  | .ok calls => calls
  | .error _ => []

def entries (w : World) (op : Op) : List SystemEntry := trace System.step w.system (w.calls op)

end World

section Counts
variable {tr later : List SystemEntry} {w : World}

theorem run_calls {s : System} (h : Run System.step (fun _ _ => True) .new tr s) (calls : List Call) :
    Run System.step (fun _ _ => True) .new (tr ++ trace System.step s calls)
      (final System.step s calls) := h.append (Run.of_calls fun _ _ => trivial)

theorem grantCount_append (id : ProcessId) (tr later : List SystemEntry) :
    grantCount id (tr ++ later) = grantCount id tr + grantCount id later := by
  simp [grantCount]

theorem spawnCount_append (tr later : List SystemEntry) :
    spawnCount (tr ++ later) = spawnCount tr + spawnCount later := List.countP_append ..

theorem causality_append (tr later : List SystemEntry) :
    causality (tr ++ later) = later.foldl CausalLedger.step (causality tr) := List.foldl_append

/-- No process was granted `2 ^ 32` capabilities. -/
def Sparing (tr : List SystemEntry) : Prop := ∀ id, grantCount id tr < 2 ^ 32

theorem Sparing.earlier (h : Sparing (tr ++ later)) : Sparing tr := by
  intro id
  have hid := h id
  rw [grantCount_append] at hid
  omega

theorem granted_mono {m n n' : ℕ} (h : m ≤ ∑ i ∈ Finset.range n, grantCount (pidAt i) tr)
    (hn : n ≤ n') : m ≤ ∑ i ∈ Finset.range n', grantCount (pidAt i) (tr ++ later) := by
  calc m ≤ ∑ i ∈ Finset.range n, grantCount (pidAt i) tr := h
    _ ≤ ∑ i ∈ Finset.range n', grantCount (pidAt i) tr :=
      Finset.sum_le_sum_of_subset (Finset.range_subset_range.mpr hn)
    _ ≤ ∑ i ∈ Finset.range n', grantCount (pidAt i) (tr ++ later) := by
      apply Finset.sum_le_sum
      intro i hi
      rw [grantCount_append]
      exact Nat.le_add_right _ _

theorem granted_few {m n : ℕ} (h : m ≤ ∑ i ∈ Finset.range n, grantCount (pidAt i) tr)
    (hn : n ≤ maxProcesses) (hsparing : Sparing tr) : channelCount + m < 2 ^ 64 := by
  have hsum : ∑ i ∈ Finset.range n, grantCount (pidAt i) tr ≤ n * 2 ^ 32 := by
    have hcard := Finset.sum_le_card_nsmul (Finset.range n) (fun i => grantCount (pidAt i) tr) (2 ^ 32)
      fun i _ => (hsparing (pidAt i)).le
    rwa [Finset.card_range, smul_eq_mul] at hcard
  rw [maxProcesses] at hn
  rw [channelCount]
  omega

namespace Mirrors

theorem numbered (h : Mirrors tr w) (hsparing : Sparing tr) : Numbered tr w.system := by
  apply Numbered.run h.run System.fresh_new
  · have hprocs := h.procs
    rw [maxProcesses] at hprocs
    rw [h.spawns]
    omega
  · exact hsparing

theorem upto (h : Mirrors tr w) (hsparing : Sparing tr) {id : ProcessId} {p : Process}
    (hp : w.sched.process id = some p) : p.Upto (grantCount id tr) := by
  have hnumbered := h.numbered hsparing
  refine ⟨hnumbered.nextHandle id p hp, fun a c ha => ?_⟩
  apply hnumbered.handles id p hp
  rw [ha]
  simp

theorem process (h : Mirrors tr w) {i : ℕ} (hi : i < w.procs.length) :
    ∃ pm p, w.procs[i]? = some pm ∧ pm.pid = pidAt i ∧ w.sched.process pm.pid = some p ∧
      Mirrored w.regions.length pm p := by
  obtain ⟨pm, hpm⟩ := lookup hi
  obtain ⟨hpid, p, hp, hm⟩ := h.tables i pm hpm
  exact ⟨pm, p, hpm, hpid, hpid ▸ hp, hm⟩

end Mirrors

end Counts

theorem pidAt_ne {i j : ℕ} (hi : i < maxProcesses) (hj : j < maxProcesses) (hne : i ≠ j) :
    pidAt i ≠ pidAt j := by
  rw [maxProcesses] at hi hj
  rwa [Ne, pidAt_inj (by omega) (by omega)]

namespace Chronicled
variable {g : CausalLedger} {n : ℕ} {stamps : List EventStamp} {preds : List (List ℕ)}
  {lastEvent : List (Option ℕ)} {inFlight : List (List MessageModel)}

theorem length (h : Chronicled g n stamps preds lastEvent inFlight) :
    stamps.length = g.nodes.length := by
  rw [h.stamps, List.length_map]

theorem last_getElem? (h : Chronicled g n stamps preds lastEvent inFlight) {i : ℕ} (hi : i < n) :
    lastEvent[i]? = some (g.last (pidAt i)) := by
  rw [h.last, List.getElem?_map, List.getElem?_range hi, Option.map_some]

theorem record (h : Chronicled g n stamps preds lastEvent inFlight) {i : ℕ} (hi : i < n)
    (hn : n ≤ maxProcesses) (stamp : EventStamp) (sources : List ℕ) :
    Chronicled (g.record (pidAt i) stamp sources) n (stamps ++ [stamp])
      (preds ++ [sources ++ (g.last (pidAt i)).toList]) (lastEvent.set i (some stamps.length))
      inFlight := by
  have hlast : ∀ j, j < n → (g.record (pidAt i) stamp sources).last (pidAt j) =
      if i = j then some stamps.length else g.last (pidAt j) := by
    intro j hj
    rw [h.length]
    split
    · next heq =>
      subst heq
      exact Function.update_self ..
    · next hne => exact Function.update_of_ne (pidAt_ne (by omega) (by omega) (Ne.symm hne)) ..
  refine ⟨?_, ?_, ?_, fun id hid => ?_, h.inFlight⟩
  · rw [h.stamps, CausalLedger.record, List.map_append]
    rfl
  · apply List.rel_append h.preds
    refine .cons (fun k => ?_) .nil
    rw [List.mem_append, List.mem_append]
    exact or_comm
  · apply List.ext_getElem?
    intro j
    rw [List.getElem?_set, List.getElem?_map]
    have hlength : lastEvent.length = n := by rw [h.last, List.length_map, List.length_range]
    rcases Nat.lt_or_ge j n with hj | hj
    · rw [List.getElem?_range hj, Option.map_some, hlast j hj]
      split
      · next heq => rw [if_pos (by omega)]
      · exact h.last_getElem? hj
    · rw [if_neg (by omega), List.getElem?_eq_none (by omega),
        List.getElem?_eq_none (by rwa [List.length_range])]
      rfl
  · have hne : id ≠ pidAt i := hid i hi
    exact (Function.update_of_ne hne ..).trans (h.absent id hid)

theorem setInFlight (h : Chronicled g n stamps preds lastEvent inFlight) {c : ℕ}
    (hlength : inFlight.length = channelCount) (hc : c < channelCount) (queue : List MessageModel) :
    Chronicled (g.setInFlight (objectAt c) (queue.map MessageModel.sendEvent)) n stamps preds lastEvent
      (inFlight.set c queue) := by
  refine ⟨h.stamps, h.preds, h.last, h.absent, fun c' queue' hc' => ?_⟩
  have hlt' : c < inFlight.length := by rwa [hlength]
  rw [List.getElem?_set, if_pos hlt'] at hc'
  split at hc'
  · next heq =>
    subst heq
    rw [← Option.some.inj hc']
    exact (Function.update_self (objectAt c) _ g.inFlight).symm
  · next hne =>
    have hlt : c' < channelCount := hlength ▸ (List.getElem?_eq_some_iff.mp hc').1
    have hobjects : objectAt c' ≠ objectAt c := by
      rw [channelCount] at hc hlt
      rw [Ne, objectAt_inj (by omega) (by omega)]
      exact Ne.symm hne
    rw [h.inFlight c' queue' hc']
    exact (Function.update_of_ne hobjects _ g.inFlight).symm

theorem enlist (h : Chronicled g n stamps preds lastEvent inFlight) (hn : n < maxProcesses) :
    Chronicled g (n + 1) stamps preds (lastEvent ++ [none]) inFlight := by
  refine ⟨h.stamps, h.preds, ?_, fun id hid => ?_, h.inFlight⟩
  · have hnone : g.last (pidAt n) = none := by
      apply h.absent
      intro i hi
      exact pidAt_ne hn (by omega) (by omega)
    rw [List.range_succ, List.map_append, ← h.last, List.map_singleton, hnone]
  · exact h.absent id fun i hi => hid i (Nat.lt_succ_of_lt hi)

end Chronicled

/-- An event is recorded in the model as it is in the event graph. -/
theorem recordEvent_eq {g : CausalLedger} {n i : ℕ} {w : World}
    (h : Chronicled g n w.stamps w.preds w.lastEvent w.inFlight) (hi : i < n) (hn : n ≤ maxProcesses)
    (stamp : EventStamp) (sources : List ℕ) : ∃ lastEvent preds,
      w.recordEvent i stamp sources = .ok (w.stamps.length,
        { w with lastEvent, stamps := w.stamps ++ [stamp], preds }) ∧
      Chronicled (g.record (pidAt i) stamp sources) n (w.stamps ++ [stamp]) preds lastEvent
        w.inFlight := by
  refine ⟨_, _, ?_, h.record hi hn stamp sources⟩
  rw [World.recordEvent, index_eq (h.last_getElem? hi)]
  rfl

end Muaddib.Chaos
