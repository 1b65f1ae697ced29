import Muaddib.CausalHistories
import Muaddib.CausalPasts

/-! # Stamps measure the causal past

The vector counters of a stamp count the events of its past, its Lamport time is the length of the
longest chain that ends at it, and sorting by the total order key extends happened-before. -/
namespace Muaddib
open LabelledRuns CausalGraphs SystemEntry

def EventNode.ranked (n : EventNode) : Event Unit := ⟨(), n.preds, fun _ => n.stamp.lamport.toNat⟩

namespace CausalLedger

def ranks (g : CausalLedger) : List (Event Unit) := g.nodes.map EventNode.ranked

/-- A process's Lamport clock holds the Lamport time of its last event, and every stamp names the
process of its event. -/
structure Paced (g : CausalLedger) (s : System) : Prop where
  owner : ∀ n ∈ g.nodes, n.stamp.process = n.process
  ranked : Ranked g.ranks ()
  clocks : ∀ id p, s.sched.process id = some p →
    p.clock.lamport.time.toNat = past g.ranks (g.last id).toList ()

namespace Paced
variable {g : CausalLedger} {s s' : System}

theorem start (h : s.Fresh) : Paced CausalLedger.start s := by
  refine ⟨by simp [CausalLedger.start], .nil, fun id p hp => ?_⟩
  rw [process_of_fresh h] at hp
  cases hp

theorem frame (h : Paced g s) (hprocess : ∀ id,
    (s'.sched.process id).map Process.clock = (s.sched.process id).map Process.clock) :
    Paced g s' := by
  refine ⟨h.owner, h.ranked, fun id p' hp' => ?_⟩
  have hclock := hprocess id
  rw [hp', Option.map_some] at hclock
  obtain ⟨p, hp, heq⟩ := Option.map_eq_some_iff.mp hclock.symm
  rw [← heq]
  exact h.clocks id p hp

theorem ranks_record (g : CausalLedger) (id : ProcessId) (stamp : EventStamp) (sources : List ℕ) :
    (g.record id stamp sources).ranks =
      g.ranks ++ [⟨(), (g.last id).toList ++ sources, fun _ => stamp.lamport.toNat⟩] := by
  simp [ranks, CausalLedger.record, EventNode.ranked]

/-- One event at `id`, one past everything it looks back to. -/
theorem record (h : Paced g s) (hf : Follows g s) {id : ProcessId} (p' : Process)
    (sources : List ℕ) (hsources : ∀ i ∈ sources, i < g.nodes.length) (hid : p'.clock.process = id)
    (htime : p'.clock.lamport.time.toNat = past g.ranks ((g.last id).toList ++ sources) () + 1)
    (hprocess : ∀ i, s'.sched.process i = if id = i then some p' else s.sched.process i) :
    Paced (g.record id p'.currentStamp sources) s' := by
  have hlen : g.ranks.length = g.nodes.length := List.length_map ..
  have hevents : g.events.length = g.nodes.length := List.length_map ..
  have hlast : ∀ {i k}, g.last i = some k → k < g.ranks.length := by
    intro i k hk
    rw [hlen, ← hevents]
    exact hf.last_lt hk
  refine ⟨fun n hn => ?_, ?_, fun i q hq => ?_⟩
  · rcases List.mem_append.mp hn with hn | hn
    · exact h.owner n hn
    · rw [List.mem_singleton.mp hn]
      exact hid
  · rw [ranks_record]
    refine h.ranked.snoc _ (fun i hi => ?_) htime
    rcases List.mem_append.mp hi with hi | hi
    · exact hlast (Option.mem_toList.mp hi)
    · rw [hlen]
      exact hsources i hi
  · rw [hprocess] at hq
    rw [ranks_record]
    split at hq
    · next heq =>
      obtain rfl := Option.some.inj hq
      subst heq
      have hnew : (g.record id p'.currentStamp sources).last id = some g.ranks.length := by
        rw [hlen]
        exact Function.update_self ..
      rw [hnew, Option.toList_some, past, List.foldr_cons, List.foldr_nil, Nat.max_zero, timeAt,
        List.getElem?_concat_length, Option.elim_some]
      rfl
    · next hne =>
      have hsame : (g.record id p'.currentStamp sources).last i = g.last i :=
        Function.update_of_ne (Ne.symm hne) ..
      rw [hsame, h.clocks i q hq, past_append]
      intro k hk
      exact hlast (Option.mem_toList.mp hk)

theorem setInFlight (h : Paced g s) {c : ObjectId} {sends : List ℕ} (hsched : s'.sched = s.sched) :
    Paced (g.setInFlight c sends) s' := by
  refine ⟨h.owner, h.ranked, ?_⟩
  rw [hsched]
  exact h.clocks

theorem enter (h : Paced g s) (hf : Follows g s) {id : ProcessId} {p : Process}
    (hnone : s.sched.process id = none) (hclock : p.clock = .new id)
    (hprocess : ∀ i, s'.sched.process i = if id = i then some p else s.sched.process i) :
    Paced g s' := by
  refine ⟨h.owner, h.ranked, fun i q hq => ?_⟩
  rw [hprocess] at hq
  split at hq
  · next heq =>
    obtain rfl := Option.some.inj hq
    subst heq
    rw [hclock, hf.absent id hnone]
    rfl
  · exact h.clocks i q hq

theorem past_le_length (h : Paced g s) (preds : List ℕ) :
    past g.ranks preds () ≤ g.nodes.length := by
  have hlen : g.ranks.length = g.nodes.length := List.length_map ..
  rcases Nat.eq_zero_or_pos (past g.ranks preds ()) with hzero | hpos
  · omega
  · obtain ⟨k, -, hmax⟩ := exists_past hpos
    cases hc : g.ranks[k]? with
    | none =>
      rw [timeAt, hc, Option.elim_none] at hmax
      omega
    | some c =>
      rw [timeAt_of_getElem? hc] at hmax
      have hle := h.ranked.rank_le hc
      have hk := (List.getElem?_eq_some_iff.mp hc).1
      omega

theorem tick (h : Paced g s) {id : ProcessId} {p : Process} (held : s.sched.process id = some p)
    (hbound : g.nodes.length + 1 < 2 ^ 64) : p.clock.sendEvent.2.lamport.time.toNat =
      past g.ranks ((g.last id).toList ++ []) () + 1 := by
  have hclock := h.clocks id p held
  have hle := h.past_le_length (g.last id).toList
  change (p.clock.lamport.time + 1).toNat = _
  rw [List.append_nil, ← hclock]
  exact MachineCounters.toNat_add_one (by omega)

theorem observe (h : Paced g s) {id : ProcessId} {p : Process}
    (held : s.sched.process id = some p) (hbound : g.nodes.length + 1 < 2 ^ 64) {i : ℕ}
    {m : Message} (hsend : g.IsSend i m) : (p.clock.receiveEvent m.sentAt).2.lamport.time.toNat =
      past g.ranks ((g.last id).toList ++ [i]) () + 1 := by
  have hclock := h.clocks id p held
  have hle := h.past_le_length ((g.last id).toList ++ [i])
  obtain ⟨n, hn, hstamp⟩ := hsend
  have hrank : g.ranks[i]? = some n.ranked := by rw [ranks, List.getElem?_map, hn]; rfl
  have hsent : m.sentAt.lamport.toNat = past g.ranks [i] () := by
    rw [past, List.foldr_cons, List.foldr_nil, Nat.max_zero, timeAt_of_getElem? hrank, ← hstamp]
    rfl
  have hmax : (max p.clock.lamport.time m.sentAt.lamport).toNat =
      past g.ranks ((g.last id).toList ++ [i]) () := by
    rw [past_preds_append, MachineCounters.toNat_max, hclock, hsent]
  change (max p.clock.lamport.time m.sentAt.lamport + 1).toNat = _
  rw [← hmax] at hle ⊢
  exact MachineCounters.toNat_add_one (by omega)

theorem eventCount_lt {nodes : List EventNode} (h : nodes.length < 2 ^ 64) (id : ProcessId) :
    (nodes.countP fun n => n.process = id) < 2 ^ 64 := List.countP_le_length.trans_lt h

theorem kept : Kept (fun nodes => nodes.length < 2 ^ 64) fun g s => Follows g s ∧ Paced g s where
  start h := ⟨.start h, .start h⟩
  within_of_concat h := by
    rw [List.length_append] at h
    omega
  inFlight h := h.1.inFlight
  frame h hprocess hmessages := ⟨h.1.frame hprocess hmessages, h.2.frame hprocess⟩
  setInFlight h _ _ _ hsched hsends hmessages :=
    ⟨h.1.setInFlight hsched hsends hmessages, h.2.setInFlight hsched⟩
  enter h _ _ hnone hclock hprocess hmessages :=
    ⟨h.1.enter hnone hclock hprocess hmessages, h.2.enter h.1 hnone hclock hprocess⟩
  event := by
    intro g s s' h id p p' held hbound hclock hprocess hmessages
    refine ⟨h.1.event held (eventCount_lt hbound) hclock hprocess hmessages, ?_⟩
    have hlen : g.nodes.length + 1 < 2 ^ 64 := by
      simpa [CausalLedger.record] using hbound
    have hstamp : p'.currentStamp = p.clock.sendEvent.1 := by
      rw [Process.currentStamp, hclock]
      rfl
    rw [← hstamp]
    refine h.2.record h.1 p' [] (by simp) ?_ ?_ hprocess
    · rw [hclock]
      exact (h.1.clocks id p held).1
    · rw [hclock]
      exact h.2.tick held hlen
  receive := by
    intro g s s' h id p p' held i m hsend hbound hclock hprocess hmessages
    refine ⟨h.1.receive held hsend (eventCount_lt hbound) hclock hprocess hmessages, ?_⟩
    have hlen : g.nodes.length + 1 < 2 ^ 64 := by
      simpa [CausalLedger.record] using hbound
    have hstamp : p'.currentStamp = (p.clock.receiveEvent m.sentAt).1 := by
      rw [Process.currentStamp, hclock]
      rfl
    rw [← hstamp]
    refine h.2.record h.1 p' [i] (fun k hk => ?_) ?_ ?_ hprocess
    · rw [List.mem_singleton.mp hk]
      exact hsend.lt
    · rw [hclock]
      exact (h.1.clocks id p held).1
    · rw [hclock]
      exact h.2.observe held hlen hsend

end Paced

section Measures
variable {g : CausalLedger} {s : System} {i j : ℕ} {a b : EventNode}

theorem ranks_getElem? (hb : g.nodes[j]? = some b) : g.ranks[j]? = some b.ranked := by
  rw [ranks, List.getElem?_map, hb]
  rfl

theorem path_ranks (g : CausalLedger) : CausalGraphs.Path g.ranks = g.Path := by
  refine path_congr fun j => ?_
  rw [ranks, List.getElem?_map, List.getElem?_map, Option.map_map, Option.map_map]
  rfl

theorem Paced.lamport_lt_of_path (h : Paced g s) (ha : g.nodes[i]? = some a)
    (hb : g.nodes[j]? = some b) (hij : g.Path i j) : a.stamp.lamport < b.stamp.lamport := by
  rw [← path_ranks] at hij
  have hlt := h.ranked.path_lt hij
  rw [timeAt_of_getElem? (ranks_getElem? ha), timeAt_of_getElem? (ranks_getElem? hb)] at hlt
  exact UInt64.lt_iff_toNat_lt.mpr hlt

end Measures
end CausalLedger

end Muaddib
