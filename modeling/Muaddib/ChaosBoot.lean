import Muaddib.ChaosCausality

/-! # The first world

The harness starts with one process that holds three channels and two regions. -/
namespace Muaddib.Chaos
open LabelledRuns
open Std (ExtTreeMap)

def World.boot : World :=
  match World.new with
  | .ok w => w
  | .error _ => World.empty

theorem World.new_eq : World.new = .ok World.boot := by
  have hok : isOk World.new = true := by decide +kernel
  rw [World.boot]
  cases hnew : World.new with
  | ok w => rfl
  | error e =>
    rw [hnew] at hok
    cases hok

/-- The calls that make the first process, and everything it holds. -/
def bootCalls : List Call :=
  .spawn [] :: World.boot.stash.flatMap fun x =>
    [if x.2.obj.isRegion then .newRegion 8 else .newChannel, .grant (pidAt 0) x.1]

def bootTrace : List SystemEntry := trace System.step .new bootCalls

theorem final_bootCalls : final System.step .new bootCalls = World.boot.system := rfl

private structure FirstWorld (w : World) : Prop where
  procCount : w.procs.length = 1
  regionCount : w.regions.length = 2
  pid : w.procs.head?.map ProcModel.pid = some (pidAt 0)
  few : channelCount + w.regions.length < 2 ^ 64
  nextId : w.k.nextId = UInt64.ofNat (channelCount + w.regions.length)
  objects : w.channelObjects = (List.range channelCount).map objectAt
  channel : ∀ c, c < channelCount → w.k.epochs[objectAt c]? = some 0
  region : ∀ x ∈ w.regions.zipIdx, x.1.object = objectAt (channelCount + x.2) ∧
    w.k.epochs[x.1.object]? = if x.1.alive then some x.1.epoch else none
  bytes : ∀ region ∈ w.regions,
    w.mem.regions[region.object]? = if region.alive then some region.bytes else none
  stored : ∀ o ∈ w.mem.regions.keys, ∃ region ∈ w.regions, region.object = o
  count : w.mem.regionCount = (w.regions.filter fun region => region.alive).length
  running : (w.sched.process (pidAt 0)).isSome = true
  holds : (w.sched.process (pidAt 0)).map Process.capabilities =
    w.procs.head?.map fun pm => pm.table.map fun _ m => m.cap
  known : ∀ pm ∈ w.procs.head?, ∀ x ∈ pm.table.toList, x.2.Known 2
  channels : ∀ pm ∈ w.procs.head?, ∀ c, c < channelCount → ∃ x ∈ pm.table.toList, x.2.obj = .channel c
  queueCount : w.inFlight.length = channelCount
  queues : ∀ x ∈ w.inFlight.zipIdx, x.1.length = 0 ∧
    w.channels.queues[objectAt x.2]?.map List.length = some 0 ∧
    (causality bootTrace).inFlight (objectAt x.2) = []
  granted : w.regions.length ≤ grantCount (pidAt 0) bootTrace
  stashed : ∀ x ∈ w.stash, x.1 = x.2.cap ∧ x.2.Known 2

private theorem boot_first : FirstWorld World.boot := by
  constructor <;> decide +kernel

private theorem boot_authority :
    Authority World.boot.k World.boot.channelObjects World.boot.regions := by
  refine ⟨boot_first.few, boot_first.nextId, boot_first.objects, boot_first.channel, ?_⟩
  intro r region hr
  exact boot_first.region (region, r) (List.mem_zipIdx_iff_getElem?.mpr hr)

private theorem boot_storage : Storage World.boot.mem World.boot.regions :=
  ⟨boot_first.bytes, fun o ho => boot_first.stored o (ExtTreeMap.mem_keys.mpr ho), boot_first.count⟩

private theorem boot_tables : Tables 2 World.boot.sched World.boot.procs := by
  intro i pm hi
  have hlt : i < 1 := boot_first.procCount ▸ (List.getElem?_eq_some_iff.mp hi).1
  obtain rfl : i = 0 := by omega
  rw [← List.head?_eq_getElem?] at hi
  have hpid := boot_first.pid
  rw [hi] at hpid
  refine ⟨Option.some.inj hpid, ?_⟩
  obtain ⟨p, hp⟩ := Option.isSome_iff_exists.mp boot_first.running
  refine ⟨p, hp, ⟨?_, ?_⟩, ?_⟩
  · have hholds := boot_first.holds
    rw [hp, hi] at hholds
    exact Option.some.inj hholds
  · intro h m hm
    exact boot_first.known pm hi (h, m) (ExtTreeMap.mem_toList_iff_getElem?_eq_some.mpr hm)
  · intro c hc
    obtain ⟨⟨h, m⟩, hx, hobj⟩ := boot_first.channels pm hi c hc
    exact ⟨h, m, ExtTreeMap.mem_toList_iff_getElem?_eq_some.mp hx, hobj⟩

private theorem boot_queues :
    Queues 2 World.boot.channels World.boot.inFlight World.boot.stamps := by
  refine ⟨boot_first.queueCount, fun c queue hc => ?_⟩
  obtain ⟨hqueue, hms, -⟩ := boot_first.queues (queue, c) (List.mem_zipIdx_iff_getElem?.mpr hc)
  rw [Option.map_eq_some_iff] at hms
  obtain ⟨ms, hms, hlength⟩ := hms
  rw [List.length_eq_zero_iff] at hqueue hlength
  subst hqueue hlength
  exact ⟨[], hms, .nil⟩

private theorem boot_chronicled : Chronicled (causality bootTrace) 1 World.boot.stamps
    World.boot.preds World.boot.lastEvent World.boot.inFlight := by
  have hnodes : (causality bootTrace).nodes = [] := rfl
  have hlast : (causality bootTrace).last = fun _ => none := rfl
  refine ⟨?_, ?_, ?_, fun id hid => ?_, fun c queue hc => ?_⟩
  · rw [hnodes]
    rfl
  · rw [hnodes]
    exact .nil
  · rw [hlast]
    rfl
  · rw [hlast]
  · obtain ⟨hqueue, -, hsends⟩ := boot_first.queues (queue, c) (List.mem_zipIdx_iff_getElem?.mpr hc)
    obtain rfl : queue = [] := List.length_eq_zero_iff.mp hqueue
    exact hsends.symm

/-- The harness starts in step with the kernel. -/
theorem boot_mirrors : Mirrors bootTrace World.boot := by
  have hregions := boot_first.regionCount
  have hprocs := boot_first.procCount
  have hrun : Run System.step (fun _ _ => True) .new bootTrace (final System.step .new bootCalls) :=
    Run.of_calls fun _ _ => trivial
  refine ⟨?_, ?_, ?_, ?_, boot_authority, boot_storage, ?_, ?_, ?_, ?_⟩
  · rwa [final_bootCalls] at hrun
  · rw [hprocs]
    rfl
  · rw [hprocs, maxProcesses]
    omega
  · rw [hprocs, Finset.sum_range_one]
    exact boot_first.granted
  · rw [hregions]
    exact boot_tables
  · rw [hregions]
    exact boot_queues
  · rw [hregions]
    exact boot_first.stashed
  · rw [hprocs]
    exact boot_chronicled

end Muaddib.Chaos
