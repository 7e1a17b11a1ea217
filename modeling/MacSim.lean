import MacSim.Computation.Table
import MacSim.Computation.Traces
import MacSim.Computation.PacketStream
import MacSim.Computation.Partial
import MacSim.Computation.Outcome
import MacSim.Computation.Forest
import MacSim.Computation.BitWindow
import MacSim.Computation.LastMatch
import MacSim.Computation.Ring
import MacSim.Model.Word
import MacSim.Model.Cache
import MacSim.Model.AddressMap
import MacSim.Model.Hierarchy
import MacSim.Model.MemReq
import MacSim.Model.Memory
import MacSim.Model.DcuCycle
import MacSim.Model.MemSystem
import MacSim.Model.Constructed
import MacSim.Model.DramAddress
import MacSim.Model.DramCtrl
import MacSim.Model.DramSimple
import MacSim.Model.LruTable
import MacSim.Model.Mmu
import MacSim.Model.Router
import MacSim.Model.Fabric
import MacSim.Model.DepMap
import MacSim.Model.CoreIssue
import MacSim.Model.OooSchedule
import MacSim.Model.BranchFetch
import MacSim.Analysis.SliceIndexing
import MacSim.Analysis.PageInvalidation
import MacSim.Analysis.CacheLines
import MacSim.Analysis.RequestBooks
import MacSim.Analysis.RequestKinds
import MacSim.Analysis.MemMoves
import MacSim.Analysis.MemFine
import MacSim.Analysis.MemSpecs
import MacSim.Analysis.CycleSpecs
import MacSim.Analysis.StepSpecs
import MacSim.Analysis.WritebackLoss
import MacSim.Analysis.StoreDirt
import MacSim.Analysis.MergeTrees
import MacSim.Analysis.Completion
import MacSim.Analysis.DramMapping
import MacSim.Analysis.DramMoves
import MacSim.Analysis.DramBooks
import MacSim.Analysis.DramBus
import MacSim.Analysis.DramSelect
import MacSim.Analysis.DramTiming
import MacSim.Analysis.DramSend
import MacSim.Analysis.DramService
import MacSim.Analysis.DramWritebacks
import MacSim.Analysis.LruBooks
import MacSim.Analysis.PagingBooks
import MacSim.Analysis.MmuCycle
import MacSim.Analysis.MmuBatch
import MacSim.Analysis.Translation
import MacSim.Analysis.Residency
import MacSim.Analysis.FabricRefinement
import MacSim.Analysis.CreditConservation
import MacSim.Analysis.WormChannels
import MacSim.Analysis.WormOwnership
import MacSim.Analysis.Delivery
import MacSim.Analysis.RingEscape
import MacSim.Analysis.UopBooks
import MacSim.Analysis.StoreHash
import MacSim.Analysis.StoreDeps
import MacSim.Analysis.IssueOrder
import MacSim.Analysis.SourceWaits
import MacSim.Analysis.OooLists
import MacSim.Analysis.FetchStall
import MacSim.Analysis.GlobalHistory
import MacSim.Analysis.UopLifetime
import MacSim.Analysis.ResourceBooks
import MacSim.Analysis.TraceDelivery
import MacSim.Analysis.StreamAlignment
import MacSim.Analysis.Replacement
import MacSim.Analysis.LineCounts
import MacSim.Analysis.UniqueLines
import MacSim.Analysis.WbRoom
import MacSim.Computation.Rounding
import MacSim.Analysis.DomainTicks
import MacSim.Analysis.SimpleDelivery
import MacSim.Analysis.RamulatorService
import MacSim.Analysis.KnobResolution
import MacSim.Analysis.PrefAccounting
import MacSim.Analysis.HmcSubstitution
import MacSim.Model.ProcessManager
import MacSim.Analysis.ThreadTally
import MacSim.Analysis.BlockDispatch
import MacSim.Analysis.DispatchRuns
import MacSim.Analysis.MeshRoutes
import MacSim.Analysis.RingRoutes
import MacSim.Computation.Recency
import MacSim.Model.LruCalls
import MacSim.Analysis.LruRefinement
import MacSim.Model.PageMapper
import MacSim.Computation.FirstTouch
import MacSim.Analysis.PageMapping
import MacSim.Model.ThreadRobs
import MacSim.Analysis.ThreadRobBooks
import MacSim.Computation.DefUse
import MacSim.Model.CpuDecoder
import MacSim.Computation.Tiling
import MacSim.Analysis.CpuDecoding
import MacSim.Analysis.RepeatMoves
import MacSim.Analysis.StringTiles
import MacSim.Analysis.UopDependences
import MacSim.Analysis.Coalescing
import MacSim.Analysis.LowestVersion
import MacSim.Analysis.LineOffsets
import MacSim.Analysis.ThreadWatermark
import MacSim.Analysis.RoundRobin
import MacSim.Analysis.PortArbitration
import MacSim.Analysis.BlockIds
import MacSim.Analysis.QueueRefinement
import MacSim.Analysis.StrideRegions
import MacSim.Analysis.StrideEpisodes
import MacSim.Analysis.IcacheHits
import MacSim.Analysis.QueueOrder
import MacSim.Analysis.WarpOrder
import MacSim.Analysis.ParentWalkRuns
import MacSim.Analysis.BarrierRuns
import MacSim.Analysis.RamulatorRuns
