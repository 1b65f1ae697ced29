import Muaddib.SystemCalls

/-! # Spawning with grants is sending the grants to a new process

`spawn_child` and `send` share how a batch is resolved and applied. What they do with the
capabilities that result, and which events they record, agrees as well. -/
namespace Muaddib
open LabelledRuns

/-- Granting capabilities and recording a reception do not see each other. -/
theorem Process.recordReceive_grantAll (p : Process) (sent : EventStamp) (caps : List Capability) :
    ((p.recordReceive sent).2.grantAll caps).2 = ((p.grantAll caps).2.recordReceive sent).2 := by
  induction caps generalizing p with
  | nil => rfl
  | cons cap caps ih => exact ih (p.grant cap).2

section
variable {s : System} {parent : ProcessId} {p : Process} {channel : Capability}

/-- A new process that receives the only message of a channel, after the send that left it there. -/
private theorem receive_by_new {batch : List (Grant × Capability)} (data : Int64)
    (held : s.sched.process parent = some p) (hlive : s.kernel.Live channel)
    (hread : channel.rights.contains .READ = true) (hwrite : channel.rights.contains .WRITE = true)
    (hempty : s.channels.queues[channel.object]? = some []) (hb : Resolved s.kernel p batch)
    (hstays : ∀ x ∈ batch, x.1.isMove = true → x.2.object ≠ channel.object) :
    ∃ d s₁ s₂, s.step (.send channel parent (batch.map Prod.fst) data) =
        (.ok (.stamp p.clock.sendEvent.1), s₁) ∧
      s₁.step (.spawn []) = (.ok (.process ⟨s.sched.nextProcessId⟩), s₂) ∧
      s₂.step (.receive channel ⟨s.sched.nextProcessId⟩) = (.ok (.delivery (some d)),
        { s with
          sched := (s.sched.setProcess parent (p.depart batch)).freshId.2.enlist
            ⟨s.sched.nextProcessId⟩
            (Scheduler.newborn ⟨s.sched.nextProcessId⟩ p.clock.sendEvent.1 (batch.map deliver))
          kernel := moveObjects s.kernel batch }) := by
  have hsend := ChannelRegistry.send_of_resolved data (Kernel.check_eq_ok_iff.mpr ⟨hlive, hwrite⟩)
    hempty hb
  let m : Message := ⟨data, batch.map deliver, p.clock.sendEvent.1⟩
  let child : ProcessId := ⟨s.sched.nextProcessId⟩
  let d : Delivery := ⟨data, ((Process.new child).grantAll m.capabilities).1, m.sentAt,
    ((Process.new child).clock.receiveEvent m.sentAt).1⟩
  let s₁ : System := { s with
    channels := ⟨s.channels.queues.insert channel.object [m]⟩
    kernel := moveObjects s.kernel batch
    sched := s.sched.setProcess parent (p.depart batch) }
  let s₂ : System := { s₁ with sched := s₁.sched.freshId.2.enlist child (.new child) }
  -- the batch left the channel in its epoch
  have hcheck : s₂.kernel.check channel .READ = .ok () := by
    have hsame : s₂.kernel.epochs[channel.object]? = s.kernel.epochs[channel.object]? :=
      moveObjects_epochs_of_notMem hstays
    rw [Kernel.check_congr hsame]
    exact Kernel.check_eq_ok_iff.mpr ⟨hlive, hread⟩
  have hqueued : s₂.channels.queues[channel.object]? = some [m] :=
    (FiniteMaps.getElem?_insert ..).trans (if_pos rfl)
  have hborn : s₂.sched.process child = some (.new child) :=
    (FiniteMaps.getElem?_insert ..).trans (if_pos rfl)
  have hqueues : s₂.channels.queues.insert channel.object [] = s.channels.queues := by
    change (s.channels.queues.insert channel.object [m]).insert channel.object [] = _
    rw [FiniteMaps.insert_insert, FiniteMaps.insert_of_getElem? _ hempty]
  have hreceive := ChannelRegistry.receive_of_cons (p := .new child) hcheck hqueued
  refine ⟨d, s₁, s₂, ?_, rfl, ?_⟩
  · simp only [System.step, System.withProcess, held, hsend, stopping]
    rfl
  · simp only [System.step, System.withProcess, child, hborn, hreceive, returning, hqueues]
    rw [← Process.recordReceive_grantAll]
    simp only [System.setProcess, Scheduler.setProcess, s₂, s₁, child, Scheduler.enlist,
      FiniteMaps.insert_insert]
    rfl

/-- A spawn with grants is the send of the grants, the spawn of a process without any, and its
receive: either both refuse the batch with the same error and change nothing, or the new process has
the same id and the systems end the same, with their tables, clocks, epochs, queues and turns. -/
theorem System.spawnChild_eq_send (grants : List Grant) (data : Int64)
    (held : s.sched.process parent = some p) (hlive : s.kernel.Live channel)
    (hread : channel.rights.contains .READ = true) (hwrite : channel.rights.contains .WRITE = true)
    (hempty : s.channels.queues[channel.object]? = some [])
    (hstays : ∀ h, .move h ∈ grants → (p.capability h).map Capability.object ≠ some channel.object) :
    (∃ e, s.step (.spawnChild parent grants) = (.error (.err (.process (.grant e))), s) ∧
      s.step (.send channel parent grants data) = (.error (.err (.ipc (.grant e))), s)) ∨
    ∃ child sent d s₁ s₂ s', s.step (.spawnChild parent grants) = (.ok (.process child), s') ∧
      s.step (.send channel parent grants data) = (.ok (.stamp sent), s₁) ∧
      s₁.step (.spawn []) = (.ok (.process child), s₂) ∧
      s₂.step (.receive channel child) = (.ok (.delivery (some d)), s') := by
  cases hr : resolveGrants s.kernel p grants with
  | error e =>
    have hcheck := Kernel.check_eq_ok_iff.mpr ⟨hlive, hwrite⟩
    refine Or.inl ⟨e, ?_, ?_⟩
    · simp only [System.step, Scheduler.spawnChild, held, hr, stopping]
    · simp only [System.step, System.withProcess, held, ChannelRegistry.send, hcheck, hempty, hr,
        stopping, System.setProcess_self held]
  | ok resolved =>
    obtain ⟨batch, hb, rfl, -⟩ := resolveGrants_eq_ok_iff.mp hr
    have hmoves : ∀ x ∈ batch, x.1.isMove = true → x.2.object ≠ channel.object := by
      rintro ⟨g, cap⟩ hx hmove heq
      have hentry := hb.entries _ hx
      cases g with
      | transfer h => cases hmove
      | derive h r => cases hmove
      | move h =>
        have hcap := (resolveGrant_move_iff.mp hentry).1
        apply hstays h (List.mem_map_of_mem (f := Prod.fst) hx)
        rw [hcap, Option.map_some]
        exact congrArg some heq
    obtain ⟨d, s₁, s₂, hsend, hspawn, hreceive⟩ :=
      receive_by_new data held hlive hread hwrite hempty hb hmoves
    refine Or.inr ⟨⟨s.sched.nextProcessId⟩, p.clock.sendEvent.1, d, s₁, s₂, _, ?_, hsend, hspawn,
      hreceive⟩
    simp only [System.step, Scheduler.spawnChild_of_resolved held hb, stopping]

end

/-- A parent that moves an object and derives from another ends the same either way. -/
theorem System.spawnChild_eq_send_move :
    let s := final System.step .new [.newObject .ALL, .newObject .ALL, .newChannel,
      .spawn [⟨⟨0⟩, .ALL, 0⟩, ⟨⟨1⟩, .ALL, 0⟩]]
    let channel : Capability := ⟨⟨2⟩, .READ ||| .WRITE ||| .GRANT ||| .DESTROY, 0⟩
    let grants : List Grant := [.move ⟨0⟩, .derive ⟨1⟩ .READ]
    (∃ e, s.step (.spawnChild ⟨0⟩ grants) = (.error (.err (.process (.grant e))), s) ∧
      s.step (.send channel ⟨0⟩ grants 7) = (.error (.err (.ipc (.grant e))), s)) ∨
    ∃ child sent d s₁ s₂ s', s.step (.spawnChild ⟨0⟩ grants) = (.ok (.process child), s') ∧
      s.step (.send channel ⟨0⟩ grants 7) = (.ok (.stamp sent), s₁) ∧
      s₁.step (.spawn []) = (.ok (.process child), s₂) ∧
      s₂.step (.receive channel child) = (.ok (.delivery (some d)), s') := by
  intro s channel grants
  have hsome : (s.sched.process ⟨0⟩).isSome = true := by decide +kernel
  obtain ⟨p, hp⟩ := Option.isSome_iff_exists.mp hsome
  have hmoved : (s.sched.process ⟨0⟩).bind (fun p => (p.capability ⟨0⟩).map Capability.object) =
      some ⟨0⟩ := by decide +kernel
  rw [hp, Option.bind_some] at hmoved
  refine System.spawnChild_eq_send grants 7 hp (by decide +kernel) (by decide) (by decide)
    (by decide +kernel) fun h hh => ?_
  have hzero : h = ⟨0⟩ := by simpa [grants] using hh
  rw [hzero, hmoved]
  decide

end Muaddib
