import Muaddib.ChaosRuns

/-! # Budgets of a run

How many events are recorded and how many capabilities are granted, counted on the operations. -/
namespace Muaddib
open Std LabelledRuns

namespace Call

def records : Call → Bool
  | .spawnChild .. | .send .. | .receive .. | .recordLocalEvent _ => true
  | _ => false

def grants : Call → Bool
  | .spawn _ | .spawnChild .. | .receive .. | .grant .. => true
  | _ => false

/-- The call hands over at most `n` capabilities. -/
def Slim (n : ℕ) : Call → Prop
  | .spawn initial => initial.length ≤ n
  | .spawnChild _ grants | .send _ _ grants _ => grants.length ≤ n
  | _ => True

end Call

/-- No message in a queue carries more than `n` capabilities. -/
def System.Slim (n : ℕ) (s : System) : Prop :=
  ∀ (o : ObjectId) (queue : List Message), s.channels.queues[o]? = some queue →
    ∀ m ∈ queue, m.capabilities.length ≤ n

/-- At most `j` of the calls record and at most `k` grant, each at most `n` capabilities. -/
structure Budgeted (n j k : ℕ) (calls : List Call) : Prop where
  records : calls.countP Call.records ≤ j
  grants : calls.countP Call.grants ≤ k
  slim : ∀ c ∈ calls, c.Slim n

section Budgets
variable {n j j' k k' : ℕ} {calls later : List Call} {s s' : System} {call : Call} {out : Outcome}
  {tr : List SystemEntry}

theorem Budgeted.nil : Budgeted n j k [] := ⟨Nat.zero_le j, Nat.zero_le k, fun _ hc => by cases hc⟩

theorem Budgeted.single (hrecords : [call].countP Call.records ≤ j) (hc : call.Slim n) :
    Budgeted n j 1 [call] :=
  ⟨hrecords, List.countP_le_length, fun _ h => List.mem_singleton.mp h ▸ hc⟩

theorem Budgeted.append (h : Budgeted n j k calls) (h' : Budgeted n j' k' later) :
    Budgeted n (j + j') (k + k') (calls ++ later) := by
  refine ⟨?_, ?_, fun c hc => (List.mem_append.mp hc).elim (h.slim c) (h'.slim c)⟩
  · rw [List.countP_append]
    exact Nat.add_le_add h.records h'.records
  · rw [List.countP_append]
    exact Nat.add_le_add h.grants h'.grants

theorem Budgeted.earlier (h : Budgeted n j k (calls ++ later)) : Budgeted n j k calls := by
  obtain ⟨hrecords, hgrants, hslim⟩ := h
  rw [List.countP_append] at hrecords hgrants
  exact ⟨by omega, by omega, fun c hc => hslim c (List.mem_append_left _ hc)⟩

/-- A call that records adds one event to the graph, and a spawn one more. -/
theorem CausalLedger.step_nodes_le (g : CausalLedger) (e : SystemEntry) :
    (g.step e).nodes.length ≤ g.nodes.length + [e.call].countP Call.records +
      if e.isSpawn then 1 else 0 := by
  obtain ⟨s, call, out, s'⟩ := e
  rw [CausalLedger.step]
  dsimp only
  split
  · exact Nat.le_add_right_of_le (Nat.le_add_right _ _)
  · simp [record, Call.records, SystemEntry.isSpawn]
  all_goals
    apply Nat.le_add_right_of_le
    simp [record, setInFlight, Call.records]

/-- The event graph grows no more than the calls that record and the spawns allow. -/
theorem foldl_nodes_le (g : CausalLedger) (h : Budgeted n j k (tr.map Entry.call)) :
    (tr.foldl CausalLedger.step g).nodes.length ≤ g.nodes.length + j + spawnCount tr := by
  have hle : (tr.foldl CausalLedger.step g).nodes.length ≤
      g.nodes.length + (tr.map Entry.call).countP Call.records + spawnCount tr := by
    clear h
    induction tr using List.reverseRecOn with
    | nil => exact le_rfl
    | append_singleton tr e ih =>
      have hstep := (tr.foldl CausalLedger.step g).step_nodes_le e
      rw [spawnCount_snoc, List.map_append, List.countP_append, List.foldl_append]
      simp only [List.foldl_cons, List.foldl_nil, List.map_cons, List.map_nil]
      omega
  have hrecords := h.records
  omega

theorem System.Slim.insert (h : s.Slim n) {o : ObjectId} {queue : List Message}
    (hqueue : ∀ m ∈ queue, m.capabilities.length ≤ n)
    (hs : s'.channels.queues = s.channels.queues.insert o queue) : s'.Slim n := by
  intro o' queue' hget
  rw [hs, FiniteMaps.getElem?_insert] at hget
  split at hget
  · obtain rfl := Option.some.inj hget
    exact hqueue
  · exact h o' queue' hget

theorem grantsInto_le {e : SystemEntry} {p : ProcessId} {m : ℕ} (h : e.granted = some (p, m))
    (id : ProcessId) : e.grantsInto id ≤ m := by
  rw [SystemEntry.grantsInto, h]
  dsimp only
  split
  · exact le_rfl
  · exact Nat.zero_le _

/-- A call that hands over little grants little, and leaves little in the queues. -/
theorem Effect.slim (heff : Effect s call out s') (h : s.Slim n) (hn : 1 ≤ n) (hcall : call.Slim n) :
    s'.Slim n ∧ ∀ id, SystemEntry.grantsInto id ⟨s, call, out, s'⟩ ≤ n * [call].countP Call.grants := by
  have hnothing : ∀ e : SystemEntry, e.granted = none → ∀ id m, e.grantsInto id ≤ m := by
    intro e he id m
    rw [SystemEntry.grantsInto, he]
    exact Nat.zero_le _
  cases heff with
  | failed call e =>
    refine ⟨h, fun id => ?_⟩
    rw [grantsInto_failed]
    exact Nat.zero_le _
  | newChannel => exact ⟨h.insert (fun m hm => by cases hm) rfl, fun id => hnothing _ rfl id _⟩
  | spawned initial =>
    refine ⟨h, fun id => (grantsInto_le rfl id).trans ?_⟩
    exact hcall.trans_eq (Nat.mul_one n).symm
  | @spawnedChild parent p batch held resolved =>
    refine ⟨h, fun id => (grantsInto_le rfl id).trans ?_⟩
    rw [delivered_of_resolved held resolved rfl, List.length_map]
    rw [Call.Slim, List.length_map] at hcall
    exact hcall.trans_eq (Nat.mul_one n).symm
  | @sent channel sender p queue batch data held live queued resolved =>
    refine ⟨h.insert (fun m hm => ?_) rfl, fun id => hnothing _ rfl id _⟩
    rcases List.mem_append.mp hm with hm | hm
    · exact h _ _ queued m hm
    · rw [List.mem_singleton.mp hm, List.length_map]
      rwa [Call.Slim, List.length_map] at hcall
  | @received channel receiver p m queue held live queued =>
    have hall := h _ _ queued
    refine ⟨h.insert (fun m' hm' => hall m' (List.mem_cons_of_mem _ hm')) rfl, fun id => ?_⟩
    refine (grantsInto_le rfl id).trans ?_
    rw [p.grantAll_length]
    exact (hall m List.mem_cons_self).trans_eq (Nat.mul_one n).symm
  | granted cap held =>
    refine ⟨h, fun id => (grantsInto_le rfl id).trans ?_⟩
    exact hn.trans_eq (Nat.mul_one n).symm
  | _ => exact ⟨h, fun id => hnothing _ rfl id _⟩

theorem LabelledRuns.Run.grantCount_le (h : Run System.step (fun _ _ => True) .new tr s) (hn : 1 ≤ n)
    (hbudget : Budgeted n j k (tr.map Entry.call)) (id : ProcessId) : grantCount id tr ≤ n * k := by
  have hle : s.Slim n ∧ grantCount id tr ≤ n * (tr.map Entry.call).countP Call.grants := by
    have hslim := hbudget.slim
    clear hbudget
    induction h with
    | start => exact ⟨fun o queue hqueue => by simp [System.new, ChannelRegistry.new] at hqueue, Nat.zero_le _⟩
    | @call tr s run c _ ih =>
      rw [List.map_append] at hslim
      obtain ⟨hs, hgrants⟩ := ih fun c hc => hslim c (List.mem_append_left _ hc)
      obtain ⟨hs', hgrant⟩ := (s.step_effect c).slim hs hn (hslim c (List.mem_append_right _ List.mem_cons_self))
      refine ⟨hs', ?_⟩
      rw [grantCount_snoc, List.map_append, List.countP_append, Nat.mul_add]
      exact Nat.add_le_add hgrants (hgrant id)
  exact hle.2.trans (Nat.mul_le_mul_left n hbudget.grants)

end Budgets

namespace Chaos

/-- The operation may record an event. -/
def Op.records : Op → Bool
  | .spawn .. | .send .. | .receive .. | .local _ => true
  | _ => false

/-- The batch of the operation has at most `n` grants. -/
def Op.Slim (n : ℕ) : Op → Prop
  | .spawn _ grants | .send _ _ grants => grants.length ≤ n
  | _ => True

instance Op.decidableSlim (n : ℕ) : (op : Op) → Decidable (op.Slim n)
  | .spawn _ grants | .send _ _ grants => inferInstanceAs (Decidable (grants.length ≤ n))
  | .newRegion .. | .receive .. | .read .. | .write .. | .revoke .. | .destroy .. | .local .. =>
    .isTrue trivial

section Operations
variable {tr : List SystemEntry} {w w' : World} {op : Op} {ops : List Op} {n j k : ℕ}

theorem ok_of_bind {α β : Type} {x : Check α} {f : α → Check β} {b : β} (h : x >>= f = .ok b) :
    ∃ a, x = .ok a ∧ f a = .ok b := by
  cases x with
  | error e => cases h
  | ok a => exact ⟨a, rfl, h⟩

theorem length_mapM {α β : Type} {f : α → Check β} {xs : List α} {ys : List β}
    (h : xs.mapM f = .ok ys) : ys.length = xs.length := by
  induction xs generalizing ys with
  | nil =>
    cases h
    rfl
  | cons x xs ih =>
    rw [List.mapM_cons] at h
    obtain ⟨y, -, h⟩ := ok_of_bind h
    obtain ⟨rest, hrest, h⟩ := ok_of_bind h
    cases h
    exact congrArg (· + 1) (ih hrest)

theorem length_concreteGrants {p : ℕ} {grants : List (ℕ × GrantKind)} {concrete : List (Handle × GrantKind)}
    (h : w.concreteGrants p grants = .ok concrete) : concrete.length ≤ grants.length := by
  obtain ⟨pm, -, h⟩ := ok_of_bind h
  dsimp only at h
  split at h
  · cases h
    exact Nat.zero_le _
  · exact (length_mapM h).le

/-- An operation makes no call, or one, or allocates a region and grants it. -/
theorem calls_budgeted (w : World) (hop : op.Slim n) :
    Budgeted (channelCount + n) ([op].countP Op.records) 1 (w.calls op) := by
  rw [World.calls]
  cases hcalls : w.callsOf op with
  | error e => exact .nil
  | ok calls =>
    dsimp only
    cases op with
    | newRegion p size =>
      obtain ⟨pm, -, h⟩ := ok_of_bind hcalls
      obtain ⟨cap, -, h⟩ := ok_of_bind h
      cases h
      refine ⟨le_rfl, le_rfl, fun c hc => ?_⟩
      rcases List.mem_pair.mp hc with rfl | rfl <;> exact trivial
    | spawn parent grants =>
      rw [World.callsOf] at hcalls
      split at hcalls
      · cases hcalls
        exact .nil
      · obtain ⟨concrete, hconcrete, h⟩ := ok_of_bind hcalls
        obtain ⟨x, -, h⟩ := ok_of_bind h
        obtain ⟨channelGrants, hchannels, h⟩ := ok_of_bind h
        obtain ⟨pm, -, h⟩ := ok_of_bind h
        cases h
        have hlength := length_mapM hchannels
        rw [List.length_range] at hlength
        refine Budgeted.single (Nat.le_refl 1) ?_
        rw [Call.Slim, List.length_append, hlength, toGrants, List.length_map]
        exact Nat.add_le_add_left ((length_concreteGrants hconcrete).trans hop) _
    | send p channel grants =>
      obtain ⟨concrete, hconcrete, h⟩ := ok_of_bind hcalls
      obtain ⟨x, -, h⟩ := ok_of_bind h
      obtain ⟨chan, -, h⟩ := ok_of_bind h
      obtain ⟨pm, -, h⟩ := ok_of_bind h
      cases h
      refine Budgeted.single (Nat.le_refl 1) ?_
      rw [Call.Slim, toGrants, List.length_map]
      exact ((length_concreteGrants hconcrete).trans hop).trans (Nat.le_add_left n channelCount)
    | receive p channel =>
      obtain ⟨chan, -, h⟩ := ok_of_bind hcalls
      obtain ⟨pm, -, h⟩ := ok_of_bind h
      cases h
      exact .single le_rfl trivial
    | write p pick regionsOnly offset len byte =>
      obtain ⟨picked, -, h⟩ := ok_of_bind hcalls
      cases picked with
      | none =>
        cases h
        exact .nil
      | some picked =>
        obtain ⟨data, -, h⟩ := ok_of_bind h
        cases h
        exact .single le_rfl trivial
    | «local» p =>
      obtain ⟨pm, -, h⟩ := ok_of_bind hcalls
      cases h
      exact .single le_rfl trivial
    | read | revoke | destroy =>
      obtain ⟨picked, -, h⟩ := ok_of_bind hcalls
      cases picked with
      | none =>
        cases h
        exact .nil
      | some picked =>
        cases h
        exact .single le_rfl trivial

theorem history_budgeted (w : World) (hops : ∀ op ∈ ops, op.Slim n) :
    Budgeted (channelCount + n) (ops.countP Op.records) ops.length
      ((history ops w).map Entry.call) := by
  induction ops generalizing w with
  | nil => exact .nil
  | cons op ops ih =>
    rw [history, List.map_append, World.entries, map_call_trace, List.length_cons,
      Nat.add_comm ops.length, ← List.singleton_append, List.countP_append]
    apply (calls_budgeted w (hops op List.mem_cons_self)).append
    cases w.execute op with
    | ok w' => exact ih w' fun op' hop' => hops op' (List.mem_cons_of_mem _ hop')
    | error e => exact .nil

theorem boot_budgeted : Budgeted n 0 6 bootCalls := by
  refine ⟨by decide +kernel, by decide +kernel, ?_⟩
  rw [bootCalls]
  rintro c (_ | ⟨_, hc⟩)
  · exact Nat.zero_le n
  · obtain ⟨x, -, hc⟩ := List.mem_flatMap.mp hc
    rcases List.mem_pair.mp hc with rfl | rfl
    · split <;> exact trivial
    · exact trivial

theorem runTrace_budgeted (hops : ∀ op ∈ ops, op.Slim n) :
    Budgeted (channelCount + n) (ops.countP Op.records) (6 + ops.length)
      ((runTrace ops).map Entry.call) := by
  rw [runTrace, List.map_append, bootTrace, map_call_trace]
  have h := (boot_budgeted (n := channelCount + n)).append (history_budgeted World.boot hops)
  rwa [Nat.zero_add] at h

theorem execute_budgeted (h : Mirrors tr w) (hrange : op.InRange w) (hn : 1 ≤ n)
    (hbudget : Budgeted n j k ((tr ++ w.entries op).map Entry.call)) (hfew : n * k < 2 ^ 32) :
    ∃ w', w.execute op = .ok w' ∧ Mirrors (tr ++ w.entries op) w' := by
  apply execute_mirrors h hrange
  intro id
  exact ((run_calls h.run (w.calls op)).grantCount_le hn hbudget id).trans_lt hfew

theorem sparing_of_budgeted (h : Mirrors tr w) (hrange : AllInRange ops w) (hn : 1 ≤ n)
    (hbudget : Budgeted n j k ((tr ++ history ops w).map Entry.call)) (hfew : n * k < 2 ^ 32) :
    Sparing (tr ++ history ops w) := by
  induction ops generalizing tr w with
  | nil =>
    rw [history, List.append_nil] at hbudget ⊢
    intro id
    exact (h.run.grantCount_le hn hbudget id).trans_lt hfew
  | cons op ops ih =>
    have hfirst : Budgeted n j k ((tr ++ w.entries op).map Entry.call) := by
      rw [history, ← List.append_assoc, List.map_append] at hbudget
      exact hbudget.earlier
    obtain ⟨w', hstep, hmirrors⟩ := execute_budgeted h hrange.1 hn hfirst hfew
    rw [history_cons hstep, ← List.append_assoc] at hbudget ⊢
    exact ih hmirrors ((allInRange_cons hstep ops).mp hrange).2 hbudget

/-- A run records at most one event for each operation that may record, and the birth of seven
children. -/
theorem events_le (h : Mirrors (runTrace ops) w) (hops : ∀ op ∈ ops, op.Slim n) :
    (causality (runTrace ops)).nodes.length ≤ ops.countP Op.records + 7 := by
  have hle := foldl_nodes_le (causality bootTrace) (history_budgeted World.boot hops)
  have hnodes : (causality bootTrace).nodes.length = 0 := rfl
  have hboot : spawnCount bootTrace = 1 := boot_mirrors.spawns
  have hspawns := h.spawns
  have hprocs := h.procs
  rw [runTrace, spawnCount_append, hboot] at hspawns
  rw [hnodes] at hle
  rw [maxProcesses] at hprocs
  rw [runTrace, causality_append]
  omega

end Operations
end Chaos
end Muaddib
