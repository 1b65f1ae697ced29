import Muaddib.Schedulers
import Muaddib.Channels
import Muaddib.MemoryRegions
import Muaddib.KernelHistories
import Muaddib.OwnershipHandoff
import Muaddib.PlacedTokens
import Muaddib.ProcessHistories
import Muaddib.CapabilityTokens
import Muaddib.ChannelHistories
import Muaddib.CausalGraphs
import Muaddib.CausalHistories
import Muaddib.PipelineData
import Muaddib.KernelPipelines
import Muaddib.RingPipelines
import Muaddib.RegionHops
import Muaddib.PipelineRounds
import Muaddib.Footprints
import Muaddib.IndependentCalls
import Muaddib.RegionSecrecy
import Muaddib.SpawnsAndSends
import Muaddib.CausalPasts
import Muaddib.StampMeasures
import Muaddib.StampProvenance
import Muaddib.RegionHistories
import Muaddib.Confinement
import Muaddib.PipelineTraces
import Muaddib.PipelineBoot
import Muaddib.PipelineRuns
import Muaddib.PipelineOutcomes
import Muaddib.PipelineCausality
import Muaddib.PipelineCustody
import Muaddib.BatchBytes
import Muaddib.ChannelAuthority
import Muaddib.ClockLattices
import Muaddib.RoundRobins
import Muaddib.SchedulerTurns
import Muaddib.RegionReclaims
import Muaddib.PipelineStatistics
import Muaddib.Baselines
import Muaddib.RingSchedules
import Muaddib.BaselineRuns
import Muaddib.PipelineAgreement
import Muaddib.ChaosHarness
import Muaddib.ChaosMirrors
import Muaddib.ChaosAudits
import Muaddib.ChaosTables
import Muaddib.ChaosBatches
import Muaddib.ChaosCalls
import Muaddib.ChaosAccesses
import Muaddib.ChaosExchanges
import Muaddib.ChaosHandovers
import Muaddib.ChaosSpawns
import Muaddib.ChaosCausality
import Muaddib.ChaosBoot
import Muaddib.ChaosRuns
import Muaddib.ChaosBudgets
import Muaddib.ChaosSeeds
import Muaddib.ChaosVerdicts
import Muaddib.ChaosFaults
import Muaddib.ChaosExactness
import Muaddib.ChaosBlindSpots
import Muaddib.ChaosStashes
import Muaddib.MultiplyShifts
import Muaddib.UniformDraws
import Muaddib.OwnFootprints
import Muaddib.GroupSecrecy
import Muaddib.GroupInterleavings
import Muaddib.RegionArrays
import Muaddib.ChaosStreams
import Muaddib.ChaosRefinement
