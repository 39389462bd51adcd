import TokenSim.Hybrid.Conservation
import TokenSim.Hybrid.Isolation
import TokenSim.Mooncake.Protection
import TokenSim.Mooncake.Bulk
import TokenSim.Comm.Correct
import TokenSim.Dp.Lockstep
import TokenSim.Native.Transfers
import TokenSim.Llm.Cancellation
import TokenSim.Llm.Budget
import TokenSim.Af.ResidentKvBooks
import TokenSim.Af.DomainArbitration
import TokenSim.Af.RendezvousOrder
import TokenSim.Af.HandoffDelivery
import TokenSim.Af.DagProgress
import TokenSim.Af.RegroupResult
import TokenSim.Af.FfnBatcherRuns
import TokenSim.Af.Batching
import TokenSim.Workload.ReplayBooks
import TokenSim.Hybrid.PlanMemo
import TokenSim.Hybrid.Reuse
import TokenSim.Hybrid.FullPages
import TokenSim.Moe.Scaling
import TokenSim.Latency.AttentionWork
import TokenSim.Hardware.Topology
