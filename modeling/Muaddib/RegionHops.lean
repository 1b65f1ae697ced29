import Muaddib.HandleTables
import Muaddib.PipelineCalls
import Muaddib.RingPipelines

/-! # One hop of a region: received, worked on, and moved on

What a turn of the pipeline does to the kernel, the memory, the queues and the process that has
it, when the region it receives is in stock. -/
namespace Muaddib
open RingPipelines SystemEntry

/-- A circulating region: the capability for it that is live, and its bytes. -/
structure Token where
  cap : Capability
  bytes : Bytes

def Token.hop (x : Token) (bytes : Bytes) : Token :=
  ⟨{ x.cap with epoch := x.cap.epoch + 1 }, bytes⟩

/-- Every token is the live capability of a region of its own, and the objects below `reserved`,
the channels, are still in their first epoch. -/
structure Stocked (reserved : ℕ) (kernel : Kernel) (memory : RegionRegistry) (tokens : List Token) :
    Prop where
  live : ∀ x ∈ tokens, kernel.Live x.cap
  rights : ∀ x ∈ tokens, x.cap.rights = fullRights
  bytes : ∀ x ∈ tokens, memory.regions[x.cap.object]? = some x.bytes
  apart : (tokens.map fun x => x.cap.object).Nodup
  firstEpoch : ∀ k, k < reserved → kernel.epochs[objectAt k]? = some 0
  beyond : ∀ x ∈ tokens, ∀ k, k < reserved → x.cap.object ≠ objectAt k

namespace Stocked
variable {reserved : ℕ} {kernel : Kernel} {memory : RegionRegistry} {tokens tokens' : List Token}
  {x : Token}

theorem perm (h : Stocked reserved kernel memory tokens) (hperm : tokens.Perm tokens') :
    Stocked reserved kernel memory tokens' where
  live y hy := h.live y (hperm.mem_iff.mpr hy)
  rights y hy := h.rights y (hperm.mem_iff.mpr hy)
  bytes y hy := h.bytes y (hperm.mem_iff.mpr hy)
  apart := (hperm.map _).nodup_iff.mp h.apart
  firstEpoch := h.firstEpoch
  beyond y hy := h.beyond y (hperm.mem_iff.mpr hy)

/-- One token hops: the kernel leaves its epoch and the memory takes its bytes. -/
theorem hop (h : Stocked reserved kernel memory (x :: tokens)) (bytes : Bytes) :
    Stocked reserved (kernel.bump x.cap.object x.cap.epoch)
      ⟨memory.regions.insert x.cap.object bytes⟩ (x.hop bytes :: tokens) := by
  have hapart := h.apart
  rw [List.map_cons, List.nodup_cons] at hapart
  have hne : ∀ y ∈ tokens, x.cap.object ≠ y.cap.object := by
    intro y hy heq
    exact hapart.1 (heq ▸ List.mem_map_of_mem hy)
  refine ⟨?_, ?_, ?_, h.apart, ?_, ?_⟩
  · intro y hy
    rw [Kernel.Live, Kernel.bump_epochs]
    rcases List.mem_cons.mp hy with rfl | hy
    · exact if_pos rfl
    · rw [if_neg (hne y hy)]
      exact h.live y (List.mem_cons_of_mem x hy)
  · intro y hy
    rcases List.mem_cons.mp hy with rfl | hy
    · exact h.rights x List.mem_cons_self
    · exact h.rights y (List.mem_cons_of_mem x hy)
  · intro y hy
    rw [FiniteMaps.getElem?_insert]
    rcases List.mem_cons.mp hy with rfl | hy
    · exact if_pos rfl
    · rw [if_neg (hne y hy)]
      exact h.bytes y (List.mem_cons_of_mem x hy)
  · intro k hk
    rw [Kernel.bump_epochs, if_neg (h.beyond x List.mem_cons_self k hk)]
    exact h.firstEpoch k hk
  · intro y hy
    rcases List.mem_cons.mp hy with rfl | hy
    · exact h.beyond x List.mem_cons_self
    · exact h.beyond y (List.mem_cons_of_mem x hy)

theorem check (h : Stocked reserved kernel memory tokens) (hx : x ∈ tokens) {r : Rights}
    (hr : fullRights.contains r = true) : kernel.check x.cap r = .ok () :=
  Kernel.check_eq_ok_iff.mpr ⟨h.live x hx, by rwa [h.rights x hx]⟩

theorem check_channel (h : Stocked reserved kernel memory tokens) {k : ℕ} (hk : k < reserved)
    (r : Rights) : kernel.check ⟨objectAt k, r, 0⟩ r = .ok () :=
  Kernel.check_eq_ok_iff.mpr ⟨h.firstEpoch k hk, Rights.contains_refl r⟩

theorem resolved (h : Stocked reserved kernel memory tokens) (hx : x ∈ tokens) {p : Process}
    {a : Handle} (ha : p.capability a = some x.cap) : Resolved kernel p [(.move a, x.cap)] where
  entries y hy := by
    rw [List.mem_singleton.mp hy]
    exact resolveGrant_move_iff.mpr ⟨ha, h.live x hx, by rw [h.rights x hx]; decide⟩
  leaving := List.nodup_singleton a
  apart := List.pairwise_singleton ..

end Stocked

/-- The stage reads from channel `src` and writes to channel `dst`, and can do no more to them. -/
structure PipelineStage.Linked (stage : PipelineStage) (p : Process) (src dst : ℕ) : Prop where
  input : ∃ h, stage.input = some h ∧ p.capability h = some ⟨objectAt src, .READ, 0⟩
  output : ∃ h, stage.output = some h ∧ p.capability h = some ⟨objectAt dst, .WRITE, 0⟩

theorem PipelineStage.Linked.keep {stage : PipelineStage} {p p' : Process} {src dst : ℕ}
    (h : stage.Linked p src dst)
    (hkeep : ∀ a c, p.capability a = some c → p'.capability a = some c) :
    stage.Linked p' src dst := by
  obtain ⟨input, hin, hread⟩ := h.input
  obtain ⟨output, hout, hwrite⟩ := h.output
  exact ⟨⟨input, hin, hkeep _ _ hread⟩, ⟨output, hout, hkeep _ _ hwrite⟩⟩

theorem PipelineStage.Linked.depart {stage : PipelineStage} {p : Process} {src dst : ℕ}
    (h : stage.Linked p src dst) {a : Handle} {cap : Capability} (ha : p.capability a = some cap)
    (hsrc : cap.object ≠ objectAt src) (hdst : cap.object ≠ objectAt dst) :
    stage.Linked (p.depart [(.move a, cap)]) src dst := by
  obtain ⟨input, hin, hread⟩ := h.input
  obtain ⟨output, hout, hwrite⟩ := h.output
  refine ⟨⟨input, hin, Process.depart_keeps ha hread ?_⟩,
    ⟨output, hout, Process.depart_keeps ha hwrite ?_⟩⟩
  · rintro rfl
    exact hsrc rfl
  · rintro rfl
    exact hdst rfl

/-- A process after it took one capability, under its next handle, and moved it on. -/
def Process.relay (p : Process) (cap : Capability) (sentAt : EventStamp) : Process :=
  ((p.grant cap).2.recordReceive sentAt).2.depart [(.move ⟨p.nextHandle⟩, cap)]

/-- A process after it took the capabilities of all the messages. -/
def Process.collect (p : Process) (ms : List Message) : Process :=
  ms.foldl (fun p m => ((p.grantAll m.capabilities).2.recordReceive m.sentAt).2) p

section Relay
variable {p : Process} {n : ℕ} {cap : Capability} {sentAt : EventStamp}

theorem Process.relay_clock (p : Process) (cap : Capability) (sentAt : EventStamp) :
    (p.relay cap sentAt).clock = (p.clock.receiveEvent sentAt).2.sendEvent.2 :=
  Process.depart_clock ..

theorem Process.Upto.relay (hn : p.Upto n) (hlt : n < 2 ^ 32) : (p.relay cap sentAt).Upto (n + 1) :=
  ((hn.grant hlt).recordReceive sentAt).depart _

theorem Process.Upto.capability_relay (hn : p.Upto n) (hlt : n < 2 ^ 32) (a : Handle) :
    (p.relay cap sentAt).capability a = p.capability a := by
  rw [Process.relay, Process.capability_depart, Process.recordReceive_capability,
    Process.capability_grant]
  by_cases ha : (⟨p.nextHandle⟩ : Handle) = a
  · rw [if_pos (by simp [leavingHandles, Grant.leaving, ha]), ← ha, hn.fresh hlt]
  · rw [if_neg (by simpa [leavingHandles, Grant.leaving] using Ne.symm ha), if_neg ha]

end Relay

def Role.work : Role → Bytes → Bytes
  | .transformer i => transform i
  | _ => id

def Role.finished (batch : UInt64) (bytes : Bytes) : Role → List BatchResult
  | .transformer _ => []
  | _ => [⟨batch, checksum bytes⟩]

def Stats.hop (stats : Stats) (config : PipelineConfig) : Stats :=
  { stats with
    messages := stats.messages + 1
    bytesProcessed := stats.bytesProcessed + UInt64.ofNat config.regionSize }

namespace PipelineReport
variable (report : PipelineReport) (config : PipelineConfig) (role : Role) (action : Action)
  (batch : UInt64) (stamp : EventStamp)

@[simp] theorem recordEvent_results :
    (report.recordEvent config role action batch stamp).results = report.results := by
  unfold recordEvent
  split <;> rfl

@[simp] theorem recordEvent_stats :
    (report.recordEvent config role action batch stamp).stats = report.stats := by
  unfold recordEvent
  split <;> rfl

@[simp] theorem countBytes_results : (report.countBytes config).results = report.results := rfl

@[simp] theorem countMessage_results : report.countMessage.results = report.results := rfl

theorem recordEvent_trace (hconfig : config.trace = true) :
    (report.recordEvent config role action batch stamp).trace =
      report.trace ++ [⟨role, action, batch, stamp⟩] := by
  rw [recordEvent, if_pos hconfig]

/-- The report after a region of `bytes` went through the hands of `role`. -/
def relayed (bytes : Bytes) (received sent : EventStamp) : PipelineReport :=
  let report := report.recordEvent config role .receive batch received
  let report := { report with results := report.results ++ role.finished batch bytes }
  (report.countBytes config).countMessage.recordEvent config role .send batch sent

def emitted (sent : EventStamp) : PipelineReport :=
  (report.countBytes config).countMessage.recordEvent config role .send batch sent

@[simp] theorem countMessage_countBytes_stats :
    (report.countBytes config).countMessage.stats = report.stats.hop config := rfl

section Relayed
variable (bytes : Bytes) (received sent : EventStamp)

theorem relayed_results :
    (report.relayed config role batch bytes received sent).results =
      report.results ++ role.finished batch bytes := by
  simp [relayed]

theorem relayed_stats :
    (report.relayed config role batch bytes received sent).stats = report.stats.hop config := by
  simp [relayed]

theorem relayed_trace (hconfig : config.trace = true) :
    (report.relayed config role batch bytes received sent).trace =
      report.trace ++ [⟨role, .receive, batch, received⟩, ⟨role, .send, batch, sent⟩] := by
  rw [relayed, recordEvent_trace _ _ _ _ _ _ hconfig]
  change (report.recordEvent config role .receive batch received).trace ++ _ = _
  rw [recordEvent_trace _ _ _ _ _ _ hconfig, List.append_assoc]
  rfl

theorem emitted_results : (report.emitted config role batch sent).results = report.results := by
  simp [emitted]

theorem emitted_stats :
    (report.emitted config role batch sent).stats = report.stats.hop config := by
  simp [emitted]

theorem emitted_trace (hconfig : config.trace = true) :
    (report.emitted config role batch sent).trace = report.trace ++ [⟨role, .send, batch, sent⟩] :=
  recordEvent_trace _ _ _ _ _ _ hconfig

theorem recordEvent_trace_append : ∃ more,
    (report.recordEvent config role action batch stamp).trace = report.trace ++ more ∧
      ∀ e ∈ more, e.role = role ∧ e.action = action := by
  unfold recordEvent
  split
  · exact ⟨[⟨role, action, batch, stamp⟩], rfl, by simp⟩
  · exact ⟨[], (List.append_nil _).symm, by simp⟩

end Relayed
end PipelineReport

namespace KernelPipeline
variable {kp : KernelPipeline} {pid : ProcessId} {p : Process} {reserved k : ℕ}
  {tokens : List Token} {x : Token}

theorem setProcess_self {sched : Scheduler} (hp : sched.process pid = some p) :
    sched.setProcess pid p = sched := by
  have hinsert : sched.processes.insert pid p = sched.processes :=
    FiniteMaps.insert_of_getElem? _ hp
  rw [Scheduler.setProcess, hinsert]

theorem setProcess_setProcess (sched : Scheduler) (p' : Process) :
    (sched.setProcess pid p).setProcess pid p' = sched.setProcess pid p' := by
  simp only [Scheduler.setProcess, FiniteMaps.insert_insert]

@[simp] theorem setProcess_process_self (sched : Scheduler) :
    (sched.setProcess pid p).process pid = some p :=
  (FiniteMaps.getElem?_insert ..).trans (if_pos rfl)

theorem receive_empty (hc : kp.kernel.check ⟨objectAt k, .READ, 0⟩ .READ = .ok ())
    (hp : kp.sched.process pid = some p)
    (hq : kp.channels.queues[objectAt k]? = some []) :
    kp.receive pid ⟨objectAt k, .READ, 0⟩ = .ok (none, kp) := by
  simp only [receive, hp, ChannelRegistry.receive_of_nil hc hq,
    setProcess_self hp]

theorem receive_region (hc : kp.kernel.check ⟨objectAt k, .READ, 0⟩ .READ = .ok ())
    (hp : kp.sched.process pid = some p) {m : Message} {queue : List Message}
    (hq : kp.channels.queues[objectAt k]? = some (m :: queue)) (hm : m.capabilities = [x.cap]) :
    kp.receive pid ⟨objectAt k, .READ, 0⟩ = .ok
      (some ⟨m.data, [⟨p.nextHandle⟩], m.sentAt, (p.clock.receiveEvent m.sentAt).1⟩,
      { kp with
        channels := ⟨kp.channels.queues.insert (objectAt k) queue⟩
        sched := kp.sched.setProcess pid ((p.grant x.cap).2.recordReceive m.sentAt).2 }) := by
  simp only [receive, hp, ChannelRegistry.receive_of_cons hc hq, hm]
  rfl

theorem send_region (kp : KernelPipeline) (hc : kp.kernel.check ⟨objectAt k, .WRITE, 0⟩ .WRITE = .ok ())
    (hp : kp.sched.process pid = some p) {queue : List Message}
    (hq : kp.channels.queues[objectAt k]? = some queue) {a : Handle}
    (hb : Resolved kp.kernel p [(.move a, x.cap)]) (data : Int64) (bytes : Bytes) :
    kp.send pid ⟨objectAt k, .WRITE, 0⟩ [.move a] data = .ok (p.clock.sendEvent.1,
      { kp with
        kernel := kp.kernel.bump x.cap.object x.cap.epoch
        channels := ⟨kp.channels.queues.insert (objectAt k)
          (queue ++ [⟨data, [(x.hop bytes).cap], p.clock.sendEvent.1⟩])⟩
        sched := kp.sched.setProcess pid (p.depart [(.move a, x.cap)]) }) := by
  have hsend := ChannelRegistry.send_of_resolved data hc hq hb
  rw [List.map_singleton] at hsend
  simp only [send, hp, hsend]
  rfl

theorem updateRegion_region (hs : Stocked reserved kp.kernel kp.memory tokens) (hx : x ∈ tokens)
    (f : SliceUpdate Unit) : kp.updateRegion x.cap f =
      .ok { kp with memory := ⟨kp.memory.regions.insert x.cap.object (f.run x.bytes).2⟩ } := by
  have hc := hs.check hx (r := .READ ||| .WRITE) (by decide)
  simp only [updateRegion, RegionRegistry.update, hc, hs.bytes x hx]

theorem inspectRegion_region (hs : Stocked reserved kp.kernel kp.memory tokens) (hx : x ∈ tokens) :
    kp.inspectRegion x.cap = .ok (checksum x.bytes) := by
  have hc := hs.check hx (r := .READ) (by decide)
  simp only [inspectRegion, RegionRegistry.inspect, hc, hs.bytes x hx]

/-- The pipeline after `x` went through the hands of process `pid`. -/
def hop (kp : KernelPipeline) (x : Token) (bytes : Bytes)
    (queues : Std.ExtTreeMap ObjectId (List Message)) (pid : ProcessId) (p : Process) :
    KernelPipeline :=
  { kp with
    kernel := kp.kernel.bump x.cap.object x.cap.epoch
    memory := ⟨kp.memory.regions.insert x.cap.object bytes⟩
    channels := ⟨queues⟩
    sched := kp.sched.setProcess pid p }

theorem capOf_eq {sched : Scheduler} (hp : sched.process pid = some p) {a : Handle} {c : Capability}
    (ha : p.capability a = some c) : capOf sched pid a = .ok c := by
  simp only [capOf, hp, ha, expect]

theorem capAt_eq (hp : kp.sched.process pid = some p) {a : Handle} {c : Capability}
    (ha : p.capability a = some c) : kp.capAt pid (some a) = some c := by
  simp only [capAt, Option.bind_some, hp, ha]

theorem batchEvents_move {a : Handle} {c : Capability} (ha : p.capability a = some c) :
    batchEvents p [.move a] = [.reissued c ⟨c.object, c.rights, c.epoch + 1⟩] := by
  simp [batchEvents, deriveEvent, moveEvent, ha]

section PassOn
variable {t : Turn} {src dst n : ℕ}

theorem passOn_of_nil (hs : Stocked reserved t.kp.kernel t.kp.memory tokens)
    (hp : t.kp.sched.process t.stage.pid = some p) (hlink : t.stage.Linked p src dst)
    (hsrc : src < reserved) (hq : t.kp.channels.queues[objectAt src]? = some []) :
    passOn t = .ok (false, t) ∧ Plays t.kp.system (passOnCalls t) [] t.kp.system := by
  obtain ⟨input, hin, hcap⟩ := hlink.input
  have hreceive := receive_empty (hs.check_channel hsrc .READ) hp hq
  constructor
  · simp only [passOn, hin, expect, bind, Except.bind, capOf_eq hp hcap, hreceive]
    rfl
  · simp only [passOnCalls, hin, capAt_eq hp hcap, hreceive]
    exact plays_receive hreceive

/-- A transformer or the sink handles one region and passes it on: the region hops, its capability
travels from one queue to the other, and the handle used on the way is the only one spent. -/
theorem passOn_of_cons (hs : Stocked reserved t.kp.kernel t.kp.memory tokens) (hx : x ∈ tokens)
    (hp : t.kp.sched.process t.stage.pid = some p) (hn : p.Upto n) (hlt : n < 2 ^ 32)
    (hlink : t.stage.Linked p src dst) (hsrc : src < reserved) (hdst : dst < reserved)
    (hne : objectAt src ≠ objectAt dst) {m : Message} {queue queue' : List Message}
    (hq : t.kp.channels.queues[objectAt src]? = some (m :: queue)) (hm : m.capabilities = [x.cap])
    (hq' : t.kp.channels.queues[objectAt dst]? = some queue') :
    ∃ kp', kp' = t.kp.hop x (t.stage.role.work x.bytes)
        ((t.kp.channels.queues.insert (objectAt src) queue).insert (objectAt dst)
          (queue' ++ [⟨m.data, [(x.hop (t.stage.role.work x.bytes)).cap],
            (p.clock.receiveEvent m.sentAt).2.sendEvent.1⟩])) t.stage.pid (p.relay x.cap m.sentAt) ∧
      passOn t = .ok (true, { t with
        kp := kp'
        report := t.report.relayed t.kp.config t.stage.role m.data.toUInt64 x.bytes
          (p.clock.receiveEvent m.sentAt).1 (p.clock.receiveEvent m.sentAt).2.sendEvent.1 }) ∧
      Plays t.kp.system (passOnCalls t)
        [.reissued x.cap (x.hop (t.stage.role.work x.bytes)).cap] kp'.system := by
  obtain ⟨input, hin, hread⟩ := hlink.input
  obtain ⟨output, hout, hwrite⟩ := hlink.output
  have hread' := hs.check_channel hsrc .READ
  have hwrite' := hs.check_channel hdst .WRITE
  have hreceive := receive_region hread' hp hq hm
  obtain ⟨a, ha⟩ : ∃ a : Handle, a = ⟨p.nextHandle⟩ := ⟨_, rfl⟩
  obtain ⟨p₁, hp₁⟩ : ∃ p₁, p₁ = ((p.grant x.cap).2.recordReceive m.sentAt).2 := ⟨_, rfl⟩
  obtain ⟨kp₁, hkp₁⟩ : ∃ kp₁, kp₁ = { t.kp with
      channels := ⟨t.kp.channels.queues.insert (objectAt src) queue⟩
      sched := t.kp.sched.setProcess t.stage.pid p₁ } := ⟨_, rfl⟩
  rw [← ha, ← hp₁, ← hkp₁] at hreceive
  have hrelay : p.relay x.cap m.sentAt = p₁.depart [(.move a, x.cap)] := by rw [hp₁, ha]; rfl
  have hclock : p₁.clock = (p.clock.receiveEvent m.sentAt).2 := by rw [hp₁]; rfl
  have hkeep : ∀ b c, p.capability b = some c → p₁.capability b = some c :=
    fun b c hb => hp₁ ▸ hn.keeps hlt hb
  have hheld : p₁.capability a = some x.cap := by
    rw [hp₁, ha]
    change (p.grant x.cap).2.capability _ = some x.cap
    rw [Process.capability_grant, if_pos rfl]
  have hs₁ : Stocked reserved kp₁.kernel kp₁.memory tokens := by rwa [hkp₁]
  have hprocess : kp₁.sched.process t.stage.pid = some p₁ := by
    rw [hkp₁]
    exact setProcess_process_self _
  have hq₁ : kp₁.channels.queues[objectAt dst]? = some queue' := by
    rw [hkp₁]
    change (t.kp.channels.queues.insert (objectAt src) queue)[objectAt dst]? = some queue'
    rw [FiniteMaps.getElem?_insert, if_neg hne, hq']
  -- the kernel and the tables are as before when the region, worked on, is sent
  have hsend : ∀ memory, KernelPipeline.send { kp₁ with memory } t.stage.pid
      ⟨objectAt dst, .WRITE, 0⟩ [.move a] m.data = _ := fun memory =>
    send_region { kp₁ with memory } (hs₁.check_channel hdst .WRITE) hprocess hq₁
      (hs₁.resolved hx hheld) m.data (t.stage.role.work x.bytes)
  have hunchanged : t.kp.memory.regions.insert x.cap.object x.bytes = t.kp.memory.regions :=
    FiniteMaps.insert_of_getElem? _ (hs.bytes x hx)
  refine ⟨_, rfl, ?_, ?_⟩
  · simp only [passOn, hin, expect, bind, Except.bind, capOf_eq hp hread, hreceive,
      capOf_eq hprocess hheld]
    cases hrole : t.stage.role with
    | transformer i =>
      simp only [updateRegion_region hs₁ hx, hout, pure, Except.pure,
        capOf_eq hprocess (hkeep _ _ hwrite), hsend]
      simp only [hkp₁, hop, setProcess_setProcess, PipelineReport.relayed, hrole, Role.work,
        Role.finished, List.append_nil, transformSlice, hrelay, hclock]
    | _ =>
      simp only [inspectRegion_region hs₁ hx, hout, pure, Except.pure,
        capOf_eq hprocess (hkeep _ _ hwrite), hsend kp₁.memory]
      simp only [hkp₁, hop, setProcess_setProcess, PipelineReport.relayed, hrole, Role.work,
        Role.finished, id_eq, hunchanged, hrelay, hclock]
  · have hsent : ∀ (kp₂ kp₃ : KernelPipeline) (stamp : EventStamp), kp₂.sched = kp₁.sched →
        kp₂.send t.stage.pid ⟨objectAt dst, .WRITE, 0⟩ [.move a] m.data = .ok (stamp, kp₃) →
        Plays kp₂.system [.send ⟨objectAt dst, .WRITE, 0⟩ t.stage.pid [.move a] m.data]
          [.reissued x.cap (x.hop (t.stage.role.work x.bytes)).cap] kp₃.system := by
      intro kp₂ kp₃ stamp hsched h
      have hplays := plays_send (hsched ▸ hprocess) h
      rwa [batchEvents_move hheld] at hplays
    have hreceived := plays_receive hreceive
    have hcalls : passOnCalls t = [.receive ⟨objectAt src, .READ, 0⟩ t.stage.pid,
        match t.stage.role with
          | .transformer i => .update x.cap (transformSlice i).quiet
          | _ => .inspect x.cap fun _ => [],
        .send ⟨objectAt dst, .WRITE, 0⟩ t.stage.pid [.move a] m.data] := by
      simp only [passOnCalls, hin, capAt_eq hp hread, hreceive, List.head?_cons,
        capAt_eq hprocess hheld, hout, capAt_eq hprocess (hkeep _ _ hwrite)]
      rfl
    rw [hcalls]
    cases hrole : t.stage.role with
    | transformer i =>
      have hworked := plays_update (updateRegion_region hs₁ hx (transformSlice i))
      have hplays := hreceived.cons (hworked.cons (hsent _ _ _ rfl (hsend _)))
      rw [hrole] at hplays
      refine hplays.trans_eq ?_
      simp only [hkp₁, hop, system, setProcess_setProcess, Role.work, transformSlice, hrelay, hclock]
    | _ =>
      have hworked := plays_inspect (inspectRegion_region hs₁ hx)
      have hplays := hreceived.cons (hworked.cons (hsent _ _ _ rfl (hsend kp₁.memory)))
      rw [hrole] at hplays
      refine hplays.trans_eq ?_
      simp only [hkp₁, hop, system, setProcess_setProcess, Role.work, id_eq, hunchanged, hrelay,
        hclock]

end PassOn

/-- The producer takes back everything that was returned, and holds it under new handles. -/
theorem drainReturns_eq {returned : List Token} {ms : List Message}
    (hms : List.Forall₂ (fun m y => m.capabilities = [y.cap]) ms returned) {t : Turn} {n fuel : ℕ}
    (progressed : Bool) (hc : t.kp.kernel.check ⟨objectAt k, .READ, 0⟩ .READ = .ok ())
    (hp : t.kp.sched.process t.stage.pid = some p) (hn : p.Upto n)
    (hlt : n + ms.length < 2 ^ 32) (hq : t.kp.channels.queues[objectAt k]? = some ms)
    (hfuel : ms.length < fuel) :
    ∃ kp' handles report', kp' = { t.kp with
        channels := ⟨t.kp.channels.queues.insert (objectAt k) []⟩
        sched := t.kp.sched.setProcess t.stage.pid (p.collect ms) } ∧
      drainReturns ⟨objectAt k, .READ, 0⟩ fuel progressed t =
        some (.ok (progressed || !ms.isEmpty,
          { kp := kp'
            stage := { t.stage with freeRegions := t.stage.freeRegions ++ handles }
            report := report' })) ∧
      (p.collect ms).Upto (n + ms.length) ∧
      (∀ a c, p.capability a = some c → (p.collect ms).capability a = some c) ∧
      (∀ a c, (p.collect ms).capability a = some c → p.capability a = some c ∨ a ∈ handles) ∧
      List.Forall₂ (fun a y => (p.collect ms).capability a = some y.cap) handles returned ∧
      report'.results = t.report.results ∧ report'.stats = t.report.stats ∧
      (∃ more, report'.trace = t.report.trace ++ more ∧
        ∀ e ∈ more, e.role = t.stage.role ∧ e.action = .receive) ∧
      Plays t.kp.system (drainCalls ⟨objectAt k, .READ, 0⟩ t.stage.pid fuel t.kp) []
        kp'.system := by
  induction hms generalizing t p n fuel progressed with
  | nil =>
    cases fuel with
    | zero => cases hfuel
    | succ fuel =>
      have hsame : t.kp.channels.queues.insert (objectAt k) [] = t.kp.channels.queues :=
        FiniteMaps.insert_of_getElem? _ hq
      have hreceive := receive_empty hc hp hq
      refine ⟨_, [], t.report, rfl, ?_, hn, fun _ _ ha => ha, fun _ _ ha => Or.inl ha, .nil, rfl, rfl,
        ⟨[], (List.append_nil _).symm, by simp⟩, ?_⟩
      · simp only [drainReturns, hreceive, hsame, Process.collect, List.foldl_nil, setProcess_self hp,
          List.append_nil, List.isEmpty_nil, Bool.not_true, Bool.or_false]
      · simp only [drainCalls, hreceive, hsame, Process.collect, List.foldl_nil, setProcess_self hp]
        exact plays_receive hreceive
  | @cons m y ms returned hm _ ih =>
    rw [List.length_cons] at hlt hfuel
    cases fuel with
    | zero => cases hfuel
    | succ fuel =>
      obtain ⟨p₁, hp₁⟩ : ∃ p₁, p₁ = ((p.grant y.cap).2.recordReceive m.sentAt).2 := ⟨_, rfl⟩
      have hcollect : p.collect (m :: ms) = p₁.collect ms := by
        rw [Process.collect, List.foldl_cons, hm, hp₁]
        rfl
      have hreceive := receive_region hc hp hq hm
      rw [← hp₁] at hreceive
      let t₁ : Turn :=
        { kp := { t.kp with
            channels := ⟨t.kp.channels.queues.insert (objectAt k) ms⟩
            sched := t.kp.sched.setProcess t.stage.pid p₁ }
          stage := { t.stage with freeRegions := t.stage.freeRegions ++ [⟨p.nextHandle⟩] }
          report := t.report.recordEvent t.kp.config t.stage.role .receive m.data.toUInt64
            (p.clock.receiveEvent m.sentAt).1 }
      have hq₁ : t₁.kp.channels.queues[objectAt k]? = some ms :=
        (FiniteMaps.getElem?_insert ..).trans (if_pos rfl)
      have hn₁ : p₁.Upto (n + 1) := by
        rw [hp₁]
        exact (hn.grant (by omega)).recordReceive m.sentAt
      obtain ⟨kp', handles, report', rfl, hdrain, hn', hkeep, hback, hheld, hresults, hstats,
          ⟨more, hmore, hroles⟩, hplays⟩ :=
        ih (t := t₁) true hc (setProcess_process_self _) hn₁
          (by omega) hq₁ (by omega : ms.length < fuel)
      have hgranted : p₁.capability ⟨p.nextHandle⟩ = some y.cap := by
        rw [hp₁]
        exact (Process.capability_grant ..).trans (if_pos rfl)
      obtain ⟨event, hevent, hrole⟩ := t.report.recordEvent_trace_append t.kp.config t.stage.role
        .receive m.data.toUInt64 (p.clock.receiveEvent m.sentAt).1
      rw [hcollect]
      refine ⟨_, ⟨p.nextHandle⟩ :: handles, report', rfl, ?_, ?_, ?_, ?_,
        .cons (hkeep _ _ hgranted) hheld, hresults.trans (by simp [t₁]),
        hstats.trans (by simp [t₁]), ⟨event ++ more, ?_, ?_⟩, ?_⟩
      · rw [drainReturns, hreceive]
        refine hdrain.trans ?_
        simp only [t₁, setProcess_setProcess, FiniteMaps.insert_insert, List.append_assoc,
          List.singleton_append, List.isEmpty_cons, Bool.not_false, Bool.or_true, Bool.true_or]
      · rw [List.length_cons, Nat.add_comm ms.length 1, ← Nat.add_assoc]
        exact hn'
      · intro a c ha
        apply hkeep
        rw [hp₁]
        exact hn.keeps (by omega) ha
      · intro a c ha
        rcases hback a c ha with ha | ha
        · rw [hp₁, Process.recordReceive_capability, Process.capability_grant] at ha
          split at ha
          · next heq => exact Or.inr (heq ▸ List.mem_cons_self)
          · exact Or.inl ha
        · exact Or.inr (List.mem_cons_of_mem _ ha)
      · rw [hmore, ← List.append_assoc]
        exact congrArg (· ++ more) hevent
      · intro e he
        rcases List.mem_append.mp he with he | he
        · exact hrole e he
        · exact hroles e he
      · rw [drainCalls, hreceive]
        refine ((plays_receive hreceive).cons hplays).trans_eq ?_
        simp only [t₁, system, setProcess_setProcess, FiniteMaps.insert_insert]

section Emit
variable {t : Turn} {src dst n : ℕ} (progressed : Bool)

theorem emit_of_finished (h : ¬t.stage.nextBatch < t.kp.config.batches) :
    emit progressed t = .ok (progressed, t) ∧ emitCalls t = [] := ⟨if_neg h, if_neg h⟩

theorem emit_of_nil (h : t.stage.freeRegions = []) :
    emit progressed t = .ok (progressed, t) ∧ emitCalls t = [] := by
  constructor
  · simp only [emit, h, ite_self]
  · simp only [emitCalls, h, ite_self]

theorem emit_of_cons (hs : Stocked reserved t.kp.kernel t.kp.memory tokens) (hx : x ∈ tokens)
    (hp : t.kp.sched.process t.stage.pid = some p) (hlink : t.stage.Linked p src dst)
    (hdst : dst < reserved) {queue : List Message}
    (hq : t.kp.channels.queues[objectAt dst]? = some queue) {a : Handle} {rest : List Handle}
    (hfree : t.stage.freeRegions = a :: rest) (ha : p.capability a = some x.cap)
    (hlt : t.stage.nextBatch < t.kp.config.batches) :
    ∃ kp', kp' = t.kp.hop x (fillBatch t.kp.config.seed t.stage.nextBatch x.bytes)
        (t.kp.channels.queues.insert (objectAt dst) (queue ++ [⟨t.stage.nextBatch.toInt64,
          [(x.hop (fillBatch t.kp.config.seed t.stage.nextBatch x.bytes)).cap],
          p.clock.sendEvent.1⟩])) t.stage.pid (p.depart [(.move a, x.cap)]) ∧
      emit progressed t = .ok (true,
        { kp := kp'
          stage := { t.stage with freeRegions := rest, nextBatch := t.stage.nextBatch + 1 }
          report := t.report.emitted t.kp.config t.stage.role t.stage.nextBatch
            p.clock.sendEvent.1 }) ∧
      Plays t.kp.system (emitCalls t) [.reissued x.cap
        (x.hop (fillBatch t.kp.config.seed t.stage.nextBatch x.bytes)).cap] kp'.system := by
  obtain ⟨output, hout, hwrite⟩ := hlink.output
  have hupdate := updateRegion_region hs hx (fillSlice t.kp.config.seed t.stage.nextBatch)
  have hsend : ∀ memory, KernelPipeline.send { t.kp with memory } t.stage.pid
      ⟨objectAt dst, .WRITE, 0⟩ [.move a] t.stage.nextBatch.toInt64 = _ := fun memory =>
    send_region { t.kp with memory } (hs.check_channel hdst .WRITE) hp hq
      (hs.resolved hx ha) t.stage.nextBatch.toInt64
      (fillBatch t.kp.config.seed t.stage.nextBatch x.bytes)
  refine ⟨_, rfl, ?_, ?_⟩
  · simp only [emit, if_pos hlt, hfree, bind, Except.bind, capOf_eq hp ha, hupdate, hout, expect,
      capOf_eq hp hwrite, hsend, pure, Except.pure]
    simp only [fillSlice, hop, PipelineReport.emitted]
  · simp only [emitCalls, if_pos hlt, hfree, capAt_eq hp ha, hout, capAt_eq hp hwrite]
    refine (plays_update hupdate).cons ?_
    have hplays := plays_send (by exact hp) (hsend ⟨t.kp.memory.regions.insert x.cap.object
      (fillBatch t.kp.config.seed t.stage.nextBatch x.bytes)⟩)
    rw [batchEvents_move ha] at hplays
    exact hplays

end Emit

end KernelPipeline
end Muaddib
