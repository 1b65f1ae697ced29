import Muaddib.PlacedTokens
import Muaddib.ProcessHistories

/-! # No capability slot is lost or duplicated

Every capability a process is given from outside gets a fresh token. A transfer or a move
carries the token of the slot it names, and a derivation creates a token. The ledger follows
the tokens along a run, from the calls and their outcomes alone. -/
namespace Muaddib
open LabelledRuns PlacedTokens SystemEntry

namespace System

/-- The capabilities carried by the messages queued on a channel. -/
def queued (s : System) (o : ObjectId) : List (List Capability) :=
  (s.channels.queues[o]?.getD []).map Message.capabilities

end System

/-- The tokens at every location, and those in the hand of the call being followed. -/
structure TokenLedger where
  slot : ProcessId → Handle → Option ℕ
  queue : ObjectId → List (List ℕ)
  hand : List ℕ
  next : ℕ
  /-- The capability a token was created for. -/
  origin : ℕ → Capability
  /-- How often a token was moved. -/
  moves : ℕ → ℕ

namespace TokenLedger

def start : TokenLedger :=
  ⟨fun _ _ => none, fun _ => [], [], 0, fun _ => ⟨⟨0⟩, .NONE, 0⟩, fun _ => 0⟩

/-- A fresh token for `cap` is taken in hand. -/
def create (t : TokenLedger) (cap : Capability) : TokenLedger :=
  { t with
    hand := t.hand ++ [t.next]
    next := t.next + 1
    origin := Function.update t.origin t.next cap
    moves := Function.update t.moves t.next 0 }

def setSlot (slot : ProcessId → Handle → Option ℕ) (id : ProcessId) (h : Handle) (n : Option ℕ) :
    ProcessId → Handle → Option ℕ :=
  fun i a => if i = id ∧ a = h then n else slot i a

def pick (t : TokenLedger) (id : ProcessId) (h : Handle) : TokenLedger :=
  match t.slot id h with
  | none => t
  | some n => { t with slot := setSlot t.slot id h none, hand := t.hand ++ [n] }

def countMove (t : TokenLedger) (id : ProcessId) (h : Handle) : TokenLedger :=
  match t.slot id h with
  | none => t
  | some n => { t with moves := Function.update t.moves n (t.moves n + 1) }

def carry (source : ProcessId) (t : TokenLedger) : Grant × Capability → TokenLedger
  | (.transfer h, _) => t.pick source h
  | (.derive _ _, view) => t.create view
  | (.move h, _) => (t.countMove source h).pick source h

def place (id : ProcessId) (t : TokenLedger) (h : Handle) : TokenLedger :=
  match t.hand with
  | [] => t
  | n :: rest => { t with slot := setSlot t.slot id h (some n), hand := rest }

def enqueue (t : TokenLedger) (o : ObjectId) : TokenLedger :=
  { t with queue := Function.update t.queue o (t.queue o ++ [t.hand]), hand := [] }

def dequeue (t : TokenLedger) (o : ObjectId) : TokenLedger :=
  match t.queue o with
  | [] => t
  | ns :: rest => { t with queue := Function.update t.queue o rest, hand := ns }

def record (t : TokenLedger) (e : SystemEntry) : TokenLedger :=
  match e.call, e.outcome with
  | .spawn initial, .ok (.process id) =>
    ((Process.new id).grantAll initial).1.foldl (place id) (initial.foldl create t)
  | .spawnChild parent grants, .ok (.process child) =>
    ((Process.new child).grantAll e.delivered).1.foldl (place child)
      ((grants.zip e.delivered).foldl (carry parent) t)
  | .send channel sender grants _, .ok _ =>
    ((grants.zip e.delivered).foldl (carry sender) t).enqueue channel.object
  | .receive channel receiver, .ok (.delivery (some d)) =>
    d.handles.foldl (place receiver) (t.dequeue channel.object)
  | .grant id cap, .ok (.handle h) => (t.create cap).place id h
  | _, _ => t

/-- What a token stands for: its first capability, one epoch later for every move. -/
def value (t : TokenLedger) (n : ℕ) : Capability :=
  { t.origin n with epoch := (t.origin n).epoch + UInt64.ofNat (t.moves n) }

end TokenLedger

def tokens (tr : List SystemEntry) : TokenLedger := tr.foldl TokenLedger.record .start

theorem tokens_snoc (tr : List SystemEntry) (e : SystemEntry) :
    tokens (tr ++ [e]) = (tokens tr).record e := by
  simp [tokens]

/-- The places of the tokens; a queue is one place. -/
inductive TokenPlace where
  | slot (process : ProcessId) (handle : Handle)
  | queue (channel : ObjectId)
  | hand
  deriving DecidableEq

namespace TokenLedger

def bag (t : TokenLedger) : TokenPlace → List ℕ
  | .slot id h => (t.slot id h).toList
  | .queue o => (t.queue o).flatten
  | .hand => t.hand

/-- The tokens stand for the capabilities in tables, queues and hand, each for one of them. -/
structure Tracks (t : TokenLedger) (table : ProcessId → Handle → Option Capability)
    (queued : ObjectId → List (List Capability)) (hand : List Capability) : Prop where
  exact : Exact t.bag t.next
  slots : ∀ id h, table id h = (t.slot id h).map t.value
  queues : ∀ o, queued o = (t.queue o).map (List.map t.value)
  hand : hand = t.hand.map t.value

namespace Tracks
variable {t : TokenLedger} {table : ProcessId → Handle → Option Capability}
  {queued : ObjectId → List (List Capability)} {hand : List Capability}

theorem slot_of_table (h : Tracks t table queued hand) {id : ProcessId} {a : Handle}
    {c : Capability} (hc : table id a = some c) : ∃ n, t.slot id a = some n ∧ t.value n = c := by
  rw [h.slots] at hc
  exact Option.map_eq_some_iff.mp hc

theorem slot_of_table_none (h : Tracks t table queued hand) {id : ProcessId} {a : Handle}
    (hc : table id a = none) : t.slot id a = none := by
  rw [h.slots] at hc
  exact Option.map_eq_none_iff.mp hc

/-- A change of the values of tokens outside a place is not seen in it. -/
theorem of_value (h : Tracks t table queued hand) (t' : TokenLedger) (hslot : t'.slot = t.slot)
    (hqueue : t'.queue = t.queue)
    (hvalue : ∀ p, p ≠ .hand → ∀ n ∈ t.bag p, t'.value n = t.value n) :
    (∀ id a, table id a = (t'.slot id a).map t'.value) ∧
      ∀ o, queued o = (t'.queue o).map (List.map t'.value) := by
  constructor
  · intro id a
    rw [h.slots, hslot]
    cases hn : t.slot id a with
    | none => rfl
    | some n =>
      have hv := hvalue (.slot id a) (by simp) n (by simp [bag, hn])
      simp [hv]
  · intro o
    rw [h.queues, hqueue]
    apply List.map_congr_left
    intro ns hns
    apply List.map_congr_left
    intro n hn
    exact (hvalue (.queue o) (by simp) n (List.mem_flatten.mpr ⟨ns, hns, hn⟩)).symm

theorem create (h : Tracks t table queued hand) (cap : Capability) :
    Tracks (t.create cap) table queued (hand ++ [cap]) := by
  have hvalue : ∀ p, ∀ n ∈ t.bag p, (t.create cap).value n = t.value n := by
    intro p n hn
    have hlt := (h.exact.complete n).mpr ⟨p, hn⟩
    have hne : n ≠ t.next := by omega
    simp [TokenLedger.create, value, Function.update_of_ne hne]
  obtain ⟨hslots, hqueues⟩ := h.of_value (t.create cap) rfl rfl fun p _ n hn => hvalue p n hn
  refine ⟨?_, hslots, hqueues, ?_⟩
  · apply h.exact.create (q := .hand)
    · exact List.Perm.refl _
    · intro r hr
      cases r with
      | slot id a => rfl
      | queue o => rfl
      | hand => exact absurd rfl hr
  · have hnew : (t.create cap).value t.next = cap := by
      simp [TokenLedger.create, value]
    have hold : t.hand.map (t.create cap).value = t.hand.map t.value :=
      List.map_congr_left fun n hn => hvalue .hand n hn
    change hand ++ [cap] = (t.hand ++ [t.next]).map (t.create cap).value
    rw [List.map_append, hold, List.map_singleton, hnew, h.hand]

abbrev setTable (table : ProcessId → Handle → Option Capability) (id : ProcessId) (a : Handle)
    (c : Option Capability) : ProcessId → Handle → Option Capability :=
  fun i b => if i = id ∧ b = a then c else table i b

theorem pick (h : Tracks t table queued hand) {id : ProcessId} {a : Handle} {c : Capability}
    (hc : table id a = some c) :
    Tracks (t.pick id a) (setTable table id a none) queued (hand ++ [c]) := by
  obtain ⟨n, hn, rfl⟩ := h.slot_of_table hc
  have hpick : t.pick id a = { t with slot := setSlot t.slot id a none, hand := t.hand ++ [n] } := by
    simp [TokenLedger.pick, hn]
  rw [hpick]
  refine ⟨?_, ?_, h.queues, ?_⟩
  · apply h.exact.move (p := .slot id a) (q := .hand) (by simp) [] [n]
    · simp [bag, hn]
    · simp [bag, setSlot]
    · exact List.Perm.refl _
    · intro r hr hr'
      cases r with
      | slot i b =>
        have hne : ¬(i = id ∧ b = a) := by
          rintro ⟨rfl, rfl⟩
          exact hr rfl
        simp [bag, setSlot, hne]
      | queue o => rfl
      | hand => exact absurd rfl hr'
  · intro i b
    by_cases hib : i = id ∧ b = a
    · simp [setTable, setSlot, hib]
    · simp only [setTable, setSlot, if_neg hib]
      exact h.slots i b
  · change hand ++ [t.value n] = (t.hand ++ [n]).map t.value
    rw [List.map_append, h.hand]
    rfl

theorem countMove (h : Tracks t table queued hand) {id : ProcessId} {a : Handle} {c : Capability}
    (hc : table id a = some c) : Tracks (t.countMove id a)
      (setTable table id a (some { c with epoch := c.epoch + 1 })) queued hand := by
  obtain ⟨n, hn, rfl⟩ := h.slot_of_table hc
  have hcount : t.countMove id a = { t with moves := Function.update t.moves n (t.moves n + 1) } := by
    simp [TokenLedger.countMove, hn]
  have hin : n ∈ t.bag (.slot id a) := by simp [bag, hn]
  have hvalue : ∀ p, p ≠ .slot id a → ∀ m ∈ t.bag p, (t.countMove id a).value m = t.value m := by
    intro p hp m hm
    have hne : m ≠ n := fun he => hp (h.exact.apart p _ m hm (he ▸ hin))
    simp [hcount, value, Function.update_of_ne hne]
  have hself : (t.countMove id a).value n = { t.value n with epoch := (t.value n).epoch + 1 } := by
    simp [hcount, value, UInt64.add_assoc]
  refine ⟨?_, ?_, ?_, ?_⟩
  · rw [hcount]
    exact h.exact
  · intro i b
    have hslot : (t.countMove id a).slot = t.slot := by rw [hcount]
    rw [hslot]
    by_cases hib : i = id ∧ b = a
    · obtain ⟨rfl, rfl⟩ := hib
      simp [setTable, hn, hself]
    · simp only [setTable, if_neg hib]
      rw [h.slots]
      cases hm : t.slot i b with
      | none => rfl
      | some m =>
        have hv := hvalue (.slot i b) (by simpa using hib) m (by simp [bag, hm])
        simp [hv]
  · intro o
    have hqueue : (t.countMove id a).queue = t.queue := by rw [hcount]
    rw [hqueue, h.queues]
    apply List.map_congr_left
    intro ns hns
    apply List.map_congr_left
    intro m hm
    exact (hvalue (.queue o) (by simp) m (List.mem_flatten.mpr ⟨ns, hns, hm⟩)).symm
  · have hhand : (t.countMove id a).hand = t.hand := by rw [hcount]
    rw [hhand, h.hand]
    exact List.map_congr_left fun m hm => (hvalue .hand (by simp) m hm).symm

theorem place {c : Capability} (h : Tracks t table queued (c :: hand)) {id : ProcessId} {a : Handle}
    (hfree : table id a = none) :
    Tracks (TokenLedger.place id t a) (setTable table id a (some c)) queued hand := by
  have hnone := h.slot_of_table_none hfree
  have hhand := h.hand
  cases ht : t.hand with
  | nil => simp [ht] at hhand
  | cons n rest =>
    rw [ht, List.map_cons, List.cons.injEq] at hhand
    have hplace : TokenLedger.place id t a =
        { t with slot := setSlot t.slot id a (some n), hand := rest } := by
      simp [TokenLedger.place, ht]
    rw [hplace]
    refine ⟨?_, ?_, h.queues, hhand.2⟩
    · apply h.exact.move (p := .hand) (q := .slot id a) (by simp) rest [n]
      · simp only [bag, ht]
        exact (List.perm_append_singleton n rest).symm
      · exact List.Perm.refl _
      · simp [bag, setSlot, hnone]
      · intro r hr hr'
        cases r with
        | slot i b =>
          have hne : ¬(i = id ∧ b = a) := by
            rintro ⟨rfl, rfl⟩
            exact hr' rfl
          simp [bag, setSlot, hne]
        | queue o => rfl
        | hand => exact absurd rfl hr
    · intro i b
      by_cases hib : i = id ∧ b = a
      · simp [setTable, setSlot, hib, hhand.1]
        rfl
      · simp only [setTable, setSlot, if_neg hib]
        exact h.slots i b

theorem enqueue (h : Tracks t table queued hand) (o : ObjectId) :
    Tracks (t.enqueue o) table (Function.update queued o (queued o ++ [hand])) [] := by
  refine ⟨?_, h.slots, ?_, rfl⟩
  · apply h.exact.move (p := .hand) (q := .queue o) (by simp) [] (t.hand)
    · exact List.Perm.refl _
    · exact List.Perm.refl _
    · simp [bag, TokenLedger.enqueue]
    · intro r hr hr'
      cases r with
      | slot i b => rfl
      | queue o' =>
        have hne : o' ≠ o := fun he => hr' (by rw [he])
        simp [bag, TokenLedger.enqueue, Function.update_of_ne hne]
      | hand => exact absurd rfl hr
  · intro o'
    by_cases ho : o' = o
    · subst ho
      simp only [TokenLedger.enqueue, Function.update_self, h.queues, h.hand, List.map_append]
      rfl
    · simp only [TokenLedger.enqueue, Function.update_of_ne ho]
      exact h.queues o'

theorem dequeue (h : Tracks t table queued []) {o : ObjectId} {caps : List Capability}
    {rest : List (List Capability)} (hq : queued o = caps :: rest) :
    Tracks (t.dequeue o) table (Function.update queued o rest) caps := by
  have hqueue := h.queues o
  have hempty : t.hand = [] := List.map_eq_nil_iff.mp h.hand.symm
  rw [hq] at hqueue
  cases ht : t.queue o with
  | nil => simp [ht] at hqueue
  | cons ns nss =>
    rw [ht, List.map_cons, List.cons.injEq] at hqueue
    have hdequeue : t.dequeue o = { t with queue := Function.update t.queue o nss, hand := ns } := by
      simp [TokenLedger.dequeue, ht]
    rw [hdequeue]
    refine ⟨?_, h.slots, ?_, hqueue.1⟩
    · apply h.exact.move (p := .queue o) (q := .hand) (by simp) (nss.flatten) ns
      · simp only [bag, ht, List.flatten_cons]
        exact List.perm_append_comm
      · simp [bag]
      · simp [bag, hempty]
      · intro r hr hr'
        cases r with
        | slot i b => rfl
        | queue o' =>
          have hne : o' ≠ o := fun he => hr (by rw [he])
          simp [bag, Function.update_of_ne hne]
        | hand => exact absurd rfl hr'
    · intro o'
      by_cases ho : o' = o
      · subst ho
        simp only [Function.update_self]
        exact hqueue.2
      · simp only [Function.update_of_ne ho]
        exact h.queues o'

/-- A resolved batch takes its tokens in hand, with what it delivers. -/
theorem carry (batch : List (Grant × Capability)) (source : ProcessId)
    (h : Tracks t table queued hand) (hnodup : (leavingHandles batch).Nodup)
    (hheld : ∀ x ∈ batch, ∀ a, x.1.leaving = some a → table source a = some x.2) :
    Tracks ((batch.map fun x => (x.1, deliver x)).foldl (TokenLedger.carry source) t)
      (fun i a => if i = source ∧ a ∈ leavingHandles batch then none else table i a) queued
      (hand ++ batch.map deliver) := by
  induction batch generalizing t table hand with
  | nil => simpa [leavingHandles] using h
  | cons x batch ih =>
    obtain ⟨g, c⟩ := x
    rw [leavingHandles_cons] at hnodup
    have hrest : ∀ y ∈ batch, ∀ a, y.1.leaving = some a → table source a = some y.2 :=
      fun y hy => hheld y (List.mem_cons_of_mem _ hy)
    -- the handles leaving later are not the one that leaves first
    have hlater : ∀ a, g.leaving = some a → ∀ y ∈ batch, ∀ b, y.1.leaving = some b →
        setTable table source a none source b = some y.2 := by
      intro a ha y hy b hb
      have hmem : b ∈ leavingHandles batch :=
        List.mem_filterMap.mpr ⟨y.1, List.mem_map.mpr ⟨y, hy, rfl⟩, hb⟩
      have hne : b ≠ a := by
        rintro rfl
        rw [ha] at hnodup
        exact (List.nodup_cons.mp hnodup).1 hmem
      simp [setTable, hne, hrest y hy b hb]
    have htable : ∀ a, g.leaving = some a → (fun i b => if i = source ∧ b ∈ leavingHandles batch
        then none else setTable table source a none i b) = fun i b =>
        if i = source ∧ b ∈ leavingHandles ((g, c) :: batch) then none else table i b := by
      intro a ha
      funext i b
      rw [leavingHandles_cons, ha]
      by_cases hi : i = source <;> by_cases hb : b = a <;> simp [setTable, hi, hb]
    rw [List.map_cons, List.foldl_cons, List.map_cons, List.append_cons]
    cases g with
    | transfer a =>
      have hone := h.pick (hheld _ List.mem_cons_self a rfl)
      have hall := ih hone (List.nodup_cons.mp hnodup).2 (hlater a rfl)
      rw [htable a rfl] at hall
      exact hall
    | derive a r =>
      have hall := ih (h.create c) hnodup hrest
      simpa [leavingHandles_cons, Grant.leaving, deliver, Grant.isMove, TokenLedger.carry] using hall
    | move a =>
      have hcount := h.countMove (hheld _ List.mem_cons_self a rfl)
      have hone := hcount.pick (show setTable table source a (some { c with epoch := c.epoch + 1 }) source a =
          some { c with epoch := c.epoch + 1 } by simp [setTable])
      have htwice : setTable (setTable table source a (some { c with epoch := c.epoch + 1 }))
          source a none = setTable table source a none := by
        funext i b
        by_cases hib : i = source ∧ b = a <;> simp [setTable, hib]
      rw [htwice] at hone
      have hall := ih hone (List.nodup_cons.mp hnodup).2 (hlater a rfl)
      rw [htable a rfl] at hall
      exact hall

/-- Granting what is in hand places the tokens under the new handles, which are free. -/
theorem grantAll {caps : List Capability} (h : Tracks t table queued caps) {id : ProcessId}
    {p : Process} {n : ℕ} (hp : ∀ a, table id a = p.capability a)
    (hnext : p.nextHandle = UInt32.ofNat n) (hn : n + caps.length < 2 ^ 32)
    (hused : ∀ a, p.capability a ≠ none → a.val.toNat < n) :
    Tracks ((p.grantAll caps).1.foldl (TokenLedger.place id) t)
      (fun i a => if i = id then (p.grantAll caps).2.capability a else table i a) queued [] := by
  induction caps generalizing t table p n with
  | nil =>
    have htable : (fun i a => if i = id then (p.grantAll []).2.capability a else table i a) = table := by
      funext i a
      split
      · next hi => rw [hi, hp]; rfl
      · rfl
    rw [htable]
    exact h
  | cons cap caps ih =>
    rw [List.length_cons] at hn
    have hval : p.nextHandle.toNat = n := by
      rw [hnext, UInt32.toNat_ofNat']
      omega
    have hfree : table id ⟨p.nextHandle⟩ = none := by
      rw [hp]
      by_contra hne
      have hlt := hused _ hne
      simp only at hlt
      omega
    have hone := h.place hfree
    have hgranted : ∀ a, setTable table id ⟨p.nextHandle⟩ (some cap) id a =
        (p.grant cap).2.capability a := by
      intro a
      rw [Process.capability_grant, ← hp]
      simp [setTable, eq_comm]
    have hbelow : ∀ a, (p.grant cap).2.capability a ≠ none → a.val.toNat < n + 1 :=
      Process.grantAll_bound [cap] hnext (by simp; omega) hused
    have hall := ih hone hgranted (n := n + 1) (by simp [Process.grant, hnext]) (by omega) hbelow
    have htable : (fun i a => if i = id then ((p.grant cap).2.grantAll caps).2.capability a else
        setTable table id ⟨p.nextHandle⟩ (some cap) i a) =
        fun i a => if i = id then (p.grantAll (cap :: caps)).2.capability a else table i a := by
      funext i a
      by_cases hi : i = id
      · simp [hi, Process.grantAll]
      · simp [setTable, hi]
    rw [htable] at hall
    exact hall

theorem createAll (caps : List Capability) (h : Tracks t table queued hand) :
    Tracks (caps.foldl TokenLedger.create t) table queued (hand ++ caps) := by
  induction caps generalizing t hand with
  | nil => simpa using h
  | cons cap caps ih =>
    rw [List.append_cons]
    exact ih (h.create cap)

end Tracks

section Calls
variable {s s' : System} {t : TokenLedger}

theorem table_setProcess (s : System) (id : ProcessId) (p : Process) :
    (s.setProcess id p).table = fun i a => if i = id then p.capability a else s.table i a := by
  funext i a
  simp only [System.table, Scheduler.process, System.setProcess, Scheduler.setProcess,
    FiniteMaps.getElem?_insert]
  by_cases hi : i = id
  · simp [hi]
  · simp [hi, Ne.symm hi]

theorem table_of_process {id : ProcessId} {p : Process} (hp : s.sched.process id = some p)
    (a : Handle) : s.table id a = p.capability a := by
  simp [System.table, hp]

theorem queued_insert (s : System) (o : ObjectId) (queue : List Message) :
    ({ s with channels := ⟨s.channels.queues.insert o queue⟩ } : System).queued =
      Function.update s.queued o (queue.map Message.capabilities) := by
  funext o'
  simp only [System.queued, FiniteMaps.getElem?_insert]
  by_cases ho : o' = o
  · simp [ho]
  · simp [Ne.symm ho, Function.update_of_ne ho, System.queued]

theorem table_enlist (s s' : System) (sched : Scheduler) (id : ProcessId) (p : Process)
    (hsched : s'.sched = sched.enlist id p) (hprocesses : sched.processes = s.sched.processes) :
    s'.table = fun i a => if i = id then p.capability a else s.table i a := by
  funext i a
  simp only [System.table, Scheduler.process, hsched, Scheduler.enlist, hprocesses,
    FiniteMaps.getElem?_insert]
  by_cases hi : i = id
  · simp [hi]
  · simp [hi, Ne.symm hi]

/-- What leaves the source's table is what the batch takes in hand. -/
theorem Tracks.depart (h : Tracks t s.table s.queued []) {source : ProcessId} {p : Process}
    {batch : List (Grant × Capability)} (hp : s.sched.process source = some p)
    (hb : Resolved s.kernel p batch) :
    Tracks (((batch.map Prod.fst).zip (batch.map deliver)).foldl (TokenLedger.carry source) t)
      (s.setProcess source (p.depart batch)).table s.queued (batch.map deliver) := by
  have hzip : (batch.map Prod.fst).zip (batch.map deliver) =
      batch.map fun x => (x.1, deliver x) := by
    rw [List.zip_map']
  have hheld : ∀ x ∈ batch, ∀ a, x.1.leaving = some a → s.table source a = some x.2 := by
    intro x hx a ha
    obtain ⟨g, c⟩ := x
    rw [table_of_process hp]
    have he := hb.entries _ hx
    cases g with
    | transfer b =>
      obtain rfl := Option.some.inj ha
      exact resolveGrant_transfer_iff.mp he
    | derive b r => cases ha
    | move b =>
      obtain rfl := Option.some.inj ha
      exact (resolveGrant_move_iff.mp he).1
  have htable : (s.setProcess source (p.depart batch)).table =
      fun i a => if i = source ∧ a ∈ leavingHandles batch then none else s.table i a := by
    rw [table_setProcess]
    funext i a
    by_cases hi : i = source
    · simp [hi, Process.capability_depart, table_of_process hp]
    · simp [hi]
  rw [hzip, htable]
  exact Tracks.carry batch source h hb.leaving hheld

section Creation
variable (h : Tracks t s.table s.queued []) (hfree : s.sched.process ⟨s.sched.nextProcessId⟩ = none)

include h hfree

theorem Tracks.spawned {initial : List Capability} (hlen : initial.length < 2 ^ 32)
    (hs' : s' = { s with sched := (s.sched.spawn initial).2 }) :
    Tracks (t.record ⟨s, .spawn initial, .ok (.process ⟨s.sched.nextProcessId⟩), s'⟩) s'.table
      s'.queued [] := by
  subst hs'
  have hempty : ∀ a, s.table ⟨s.sched.nextProcessId⟩ a =
      (Process.new ⟨s.sched.nextProcessId⟩).capability a := by
    intro a
    simp [System.table, hfree]
  have hall := (h.createAll initial).grantAll (n := 0) hempty rfl (by simp; omega) (by simp)
  have htable := table_enlist s { s with sched := (s.sched.spawn initial).2 } s.sched.freshId.2
    ⟨s.sched.nextProcessId⟩ ((Process.new ⟨s.sched.nextProcessId⟩).grantAll initial).2 rfl rfl
  rw [htable]
  exact hall

theorem Tracks.spawnedChild {parent : ProcessId} {p : Process} {batch : List (Grant × Capability)}
    (held : s.sched.process parent = some p) (resolved : Resolved s.kernel p batch)
    (hlen : (batch.map deliver).length < 2 ^ 32)
    (hs' : s' = { s with
      sched := s.sched.recruit parent p batch, kernel := moveObjects s.kernel batch }) :
    Tracks (t.record ⟨s, .spawnChild parent (batch.map Prod.fst),
      .ok (.process ⟨s.sched.nextProcessId⟩), s'⟩) s'.table s'.queued [] := by
  subst hs'
  have hdelivered : ∀ o s', delivered ⟨s, .spawnChild parent (batch.map Prod.fst), o, s'⟩ =
      batch.map deliver := fun o s' => delivered_of_resolved held resolved rfl
  have hne : ⟨s.sched.nextProcessId⟩ ≠ parent := by
    rintro rfl
    rw [hfree] at held
    cases held
  have hempty : ∀ a, (s.setProcess parent (p.depart batch)).table ⟨s.sched.nextProcessId⟩ a =
      ((Process.new ⟨s.sched.nextProcessId⟩).recordReceive p.clock.sendEvent.1).2.capability a := by
    intro a
    rw [table_setProcess]
    simp [hne, System.table, hfree]
  have hall := (h.depart held resolved).grantAll (n := 0) hempty rfl (by omega) (by simp)
  have htable := fun s' hs' => table_enlist (s.setProcess parent (p.depart batch)) s'
    (s.sched.setProcess parent (p.depart batch)).freshId.2 ⟨s.sched.nextProcessId⟩
    (Scheduler.newborn ⟨s.sched.nextProcessId⟩ p.clock.sendEvent.1 (batch.map deliver)) hs' rfl
  have hhandles : (((Process.new ⟨s.sched.nextProcessId⟩).recordReceive
      p.clock.sendEvent.1).2.grantAll (batch.map deliver)).1 =
      ((Process.new ⟨s.sched.nextProcessId⟩).grantAll (batch.map deliver)).1 :=
    Process.grantAll_handles_congr _ rfl
  rw [hhandles] at hall
  rw [htable _ rfl]
  simp only [record, hdelivered]
  exact hall

end Creation

theorem Tracks.sent (h : Tracks t s.table s.queued []) {channel : Capability} {sender : ProcessId}
    {p : Process} {queue : List Message} {batch : List (Grant × Capability)} (data : Int64)
    (held : s.sched.process sender = some p) (resolved : Resolved s.kernel p batch)
    (queued : s.channels.queues[channel.object]? = some queue) (stamp : EventStamp)
    (hs' : s' = { s with
      channels := ⟨s.channels.queues.insert channel.object
        (queue ++ [⟨data, batch.map deliver, p.clock.sendEvent.1⟩])⟩
      kernel := moveObjects s.kernel batch
      sched := s.sched.setProcess sender (p.depart batch) }) :
    Tracks (t.record ⟨s, .send channel sender (batch.map Prod.fst) data, .ok (.stamp stamp), s'⟩)
      s'.table s'.queued [] := by
  subst hs'
  have hdelivered : ∀ o s', delivered ⟨s, .send channel sender (batch.map Prod.fst) data, o, s'⟩ =
      batch.map deliver := fun o s' => delivered_of_resolved held resolved rfl
  simp only [record, hdelivered]
  have hall := (h.depart held resolved).enqueue channel.object
  have hbefore : s.queued channel.object = queue.map Message.capabilities := by
    simp [System.queued, queued]
  rw [hbefore] at hall
  have hafter := queued_insert s channel.object
    (queue ++ [⟨data, batch.map deliver, p.clock.sendEvent.1⟩])
  rw [List.map_append] at hafter
  exact hafter ▸ hall

/-- If the call creates a channel, the new channel does not replace one with queued messages. -/
def keepsChannels (e : SystemEntry) : Bool :=
  match e.call with
  | .newChannel => (e.before.queued ⟨e.before.kernel.nextId⟩).isEmpty
  | _ => true

/-- One call keeps the ledger in step with the system. -/
theorem Tracks.step {tr : List SystemEntry} {call : Call} {outcome : Outcome}
    (h : Tracks t s.table s.queued []) (hnum : Numbered tr s) (heffect : Effect s call outcome s')
    (hs : spawnCount (tr ++ [⟨s, call, outcome, s'⟩]) ≤ 2 ^ 64)
    (hg : ∀ i, grantCount i (tr ++ [⟨s, call, outcome, s'⟩]) < 2 ^ 32)
    (hkeep : keepsChannels ⟨s, call, outcome, s'⟩ = true) :
    Tracks (t.record ⟨s, call, outcome, s'⟩) s'.table s'.queued [] := by
  have hspawns : isSpawn ⟨s, call, outcome, s'⟩ = true → spawnCount tr < 2 ^ 64 := by
    intro hspawn
    rw [spawnCount_snoc, if_pos hspawn] at hs
    omega
  have hinto : ∀ i, grantCount i tr + grantsInto i ⟨s, call, outcome, s'⟩ < 2 ^ 32 := by
    intro i
    rw [← grantCount_snoc]
    exact hg i
  cases heffect with
  | failed call e =>
    have hrecord : t.record ⟨s, call, .error (.err e), s⟩ = t := by cases call <;> rfl
    rwa [hrecord]
  | spawned initial =>
    have hlen := hinto ⟨s.sched.nextProcessId⟩
    simp only [grantsInto, granted, if_true] at hlen
    exact h.spawned (hnum.unused (hspawns rfl)) (by omega) rfl
  | @spawnedChild parent p batch held resolved =>
    have hlen := hinto ⟨s.sched.nextProcessId⟩
    have hdelivered : ∀ o s', delivered ⟨s, .spawnChild parent (batch.map Prod.fst), o, s'⟩ =
        batch.map deliver := fun o s' => delivered_of_resolved held resolved rfl
    simp only [grantsInto, granted, if_true, hdelivered] at hlen
    exact h.spawnedChild (hnum.unused (hspawns rfl)) held resolved (by omega) rfl
  | sent data held live queued resolved => exact h.sent data held resolved queued _ rfl
  | @received channel receiver p m queue held live queued =>
    have hlen := hinto receiver
    simp only [grantsInto, granted, if_true, Process.grantAll_length] at hlen
    have hbefore : s.queued channel.object =
        m.capabilities :: queue.map Message.capabilities := by
      simp [System.queued, queued]
    have hall := (h.dequeue hbefore).grantAll (table_of_process held)
      (hnum.nextHandle receiver p held) hlen (hnum.handles receiver p held)
    rw [← queued_insert] at hall
    have htable := table_setProcess s receiver ((p.grantAll m.capabilities).2.recordReceive m.sentAt).2
    exact htable ▸ hall
  | @recorded id p held =>
    have htable : (s.setProcess id p.recordLocalEvent.2).table = s.table := by
      rw [table_setProcess]
      funext i a
      split
      · next hi => rw [hi, table_of_process held]; rfl
      · rfl
    rw [htable]
    exact h
  | @granted id p cap held =>
    have hlen := hinto id
    simp only [grantsInto, granted, if_true] at hlen
    have hone : Tracks (t.create cap) s.table s.queued [cap] := h.create cap
    have hall := hone.grantAll (table_of_process held)
      (hnum.nextHandle id p held) hlen (hnum.handles id p held)
    rw [table_setProcess]
    exact hall
  | newChannel =>
    have hempty : s.queued ⟨s.kernel.nextId⟩ = [] := List.isEmpty_iff.mp hkeep
    have hqueued : Function.update s.queued ⟨s.kernel.nextId⟩ [] = s.queued := by
      rw [← hempty, Function.update_eq_self]
    have hafter := queued_insert s ⟨s.kernel.nextId⟩ []
    rw [List.map_nil, hqueued] at hafter
    have hsame : Tracks t s.table _ [] := hafter ▸ h
    exact hsame
  | turn =>
    have htable : ({ s with sched := s.sched.scheduleNext.2 } : System).table = s.table := by
      funext i a
      simp [System.table, Scheduler.process]
    rw [htable]
    exact h
  | newObject | newRegion | overflowed | derived | revoked | reissued | destroyedObject
  | receivedNothing | read | wrote | inspected | updated | sized | destroyedRegion | reclaimed =>
    exact h

/-- The ledger of a run is in step with its system, as long as no id or handle is reused. -/
theorem Tracks.run {allowed : List SystemEntry → Call → Prop} {s₀ : System}
    {tr : List SystemEntry} (h : Run System.step allowed s₀ tr s) (hfresh : s₀.Fresh)
    (hs : spawnCount tr ≤ 2 ^ 64) (hg : ∀ i, grantCount i tr < 2 ^ 32)
    (hkeep : ∀ e ∈ tr, keepsChannels e = true) : Tracks (tokens tr) s.table s.queued [] := by
  induction h with
  | start =>
    have hempty : TokenLedger.start.bag = fun _ => [] := by
      funext p
      cases p <;> rfl
    refine ⟨?_, ?_, ?_, rfl⟩
    · change Exact TokenLedger.start.bag 0
      rw [hempty]
      exact Exact.empty
    · intro id a
      simp [System.table, hfresh.sched, Scheduler.new, Scheduler.process, tokens, start]
    · intro o
      cases hq : s₀.channels.queues[o]? with
      | none => simp [System.queued, hq, tokens, start]
      | some queue => simp [System.queued, hq, hfresh.queues o queue hq, tokens, start]
  | @call tr s run c ok ih =>
    have hs' : spawnCount tr ≤ 2 ^ 64 := by
      rw [spawnCount_snoc] at hs
      omega
    have hg' : ∀ i, grantCount i tr < 2 ^ 32 := by
      intro i
      have hi := hg i
      rw [grantCount_snoc] at hi
      omega
    have hprior := ih hs' hg' fun e he => hkeep e (List.mem_append_left _ he)
    rw [tokens_snoc]
    exact hprior.step (Numbered.run run hfresh hs' hg') (s.step_effect c) hs hg
      (hkeep _ (List.mem_append_right _ List.mem_cons_self))

end Calls

/-- A later ledger knows the tokens of an earlier one, moved at least as often. -/
structure Extends (t t' : TokenLedger) : Prop where
  next : t.next ≤ t'.next
  origin : ∀ n < t.next, t'.origin n = t.origin n
  moves : ∀ n < t.next, t.moves n ≤ t'.moves n

namespace Extends
variable {t t₁ t₂ : TokenLedger}

theorem of_same (hnext : t₁.next = t.next) (horigin : t₁.origin = t.origin)
    (hmoves : t₁.moves = t.moves) : Extends t t₁ := by
  refine ⟨hnext.ge, fun n _ => ?_, fun n _ => ?_⟩
  · rw [horigin]
  · rw [hmoves]

theorem refl (t : TokenLedger) : Extends t t := of_same rfl rfl rfl

theorem trans (h₁ : Extends t t₁) (h₂ : Extends t₁ t₂) : Extends t t₂ where
  next := h₁.next.trans h₂.next
  origin n hn := (h₂.origin n (hn.trans_le h₁.next)).trans (h₁.origin n hn)
  moves n hn := (h₁.moves n hn).trans (h₂.moves n (hn.trans_le h₁.next))

theorem foldl {α : Type*} {f : TokenLedger → α → TokenLedger} (hf : ∀ t a, Extends t (f t a))
    (l : List α) (t : TokenLedger) : Extends t (l.foldl f t) := by
  induction l generalizing t with
  | nil => exact refl t
  | cons a l ih => exact (hf t a).trans (ih (f t a))

theorem create (t : TokenLedger) (cap : Capability) : Extends t (t.create cap) where
  next := Nat.le_succ _
  origin n hn := Function.update_of_ne (by omega) ..
  moves n hn := le_of_eq (Function.update_of_ne (by omega) ..).symm

theorem pick (t : TokenLedger) (id : ProcessId) (h : Handle) : Extends t (t.pick id h) := by
  unfold TokenLedger.pick
  split
  · exact refl t
  · exact of_same rfl rfl rfl

theorem countMove (t : TokenLedger) (id : ProcessId) (h : Handle) :
    Extends t (t.countMove id h) := by
  unfold TokenLedger.countMove
  split
  · exact refl t
  · next m _ =>
    refine ⟨le_rfl, fun _ _ => rfl, fun n _ => ?_⟩
    by_cases hn : n = m
    · simp [hn]
    · simp [Function.update_of_ne hn]

theorem carry (source : ProcessId) (t : TokenLedger) (x : Grant × Capability) :
    Extends t (TokenLedger.carry source t x) := by
  obtain ⟨g, c⟩ := x
  cases g with
  | transfer h => exact pick t source h
  | derive h r => exact create t c
  | move h => exact (countMove t source h).trans (pick _ source h)

theorem place (id : ProcessId) (t : TokenLedger) (h : Handle) :
    Extends t (TokenLedger.place id t h) := by
  unfold TokenLedger.place
  split
  · exact refl t
  · exact of_same rfl rfl rfl

theorem dequeue (t : TokenLedger) (o : ObjectId) : Extends t (t.dequeue o) := by
  unfold TokenLedger.dequeue
  split
  · exact refl t
  · exact of_same rfl rfl rfl

theorem record (t : TokenLedger) (e : SystemEntry) : Extends t (t.record e) := by
  unfold TokenLedger.record
  split
  · exact (foldl create _ t).trans (foldl (place _) _ _)
  · exact (foldl (carry _) _ t).trans (foldl (place _) _ _)
  · exact (foldl (carry _) _ t).trans (of_same rfl rfl rfl)
  · exact (dequeue t _).trans (foldl (place _) _ _)
  · exact (create t _).trans (place _ _ _)
  · exact refl t

end Extends

section Locations
variable {t : TokenLedger} {s : System}

end Locations
end TokenLedger

end Muaddib
