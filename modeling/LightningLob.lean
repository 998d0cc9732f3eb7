import LightningLob.Types
import LightningLob.OrderPool
import LightningLob.Bitset
import LightningLob.IdIndexMap
import LightningLob.Accounting
import LightningLob.Addressability
import LightningLob.AmendPriority
import LightningLob.AmendRejection
import LightningLob.ArrayCoherence
import LightningLob.BackwardShift
import LightningLob.BitsetScans
import LightningLob.Cancellation
import LightningLob.CsvLoading
import LightningLob.CsvRoundTrip
import LightningLob.DepthSnapshots
import LightningLob.DryRunAgreement
import LightningLob.EngineIds
import LightningLob.Equivalence
import LightningLob.ExactAggregates
import LightningLob.ExecutionReports
import LightningLob.FreeListRoom
import LightningLob.GatewayDelivery
import LightningLob.IdIndexMapRefinement
import LightningLob.IndexHistory
import LightningLob.LoggerDelivery
import LightningLob.LookupSafety
import LightningLob.Mirror
import LightningLob.Ownership
import LightningLob.Positions
import LightningLob.PriceTimePriority
import LightningLob.RateBudget
import LightningLob.RateLimit
import LightningLob.Reset
import LightningLob.SelfTradeSafety
import LightningLob.StorageInvariant
import LightningLob.SymbolIsolation
import LightningLob.TakerSplit
import LightningLob.Termination
import LightningLob.TimeOrder
import LightningLob.Uncrossed
import LightningLob.Lib.ReleaseAcquire
import LightningLob.QueueMemoryOrder
import LightningLob.QueueLanes
import LightningLob.SharedQueue
import LightningLob.SharedGateway
import LightningLob.SharedGatewaySteps
import LightningLob.DrainLoop
import LightningLob.ThreadedDemo
import LightningLob.GatewayFairness
import LightningLob.EngineEquivalence
import LightningLob.EngineSessions
import LightningLob.ReplayRuns
import LightningLob.SampleData
import LightningLob.SteadyState
import LightningLob.OwnedSymbols
import LightningLob.DepthSweep
