import PioplatRelay.RelayLoopSafety
import PioplatRelay.RelayDatagramIsolation
import PioplatRelay.TxFetcherTimers
import PioplatRelay.TxRetention
import PioplatRelay.HeaderQueryAgreement
import PioplatRelay.DisguiseFrames
import PioplatRelay.TransactionRelay
import PioplatRelay.TransactionAnnouncements
import PioplatRelay.ChainHead
import PioplatRelay.StartUp
import PioplatRelay.BlockAuthenticity
import PioplatRelay.PeriDeliveries
import PioplatRelay.BlockAnnounceQuota
import PioplatRelay.BlockImports
import PioplatRelay.BlockStages
import PioplatRelay.HeaderLookups
import PioplatRelay.RelayFlooding
import PioplatRelay.RelayMemory
import PioplatRelay.ForkCompatibility
import PioplatRelay.DispatcherMatching
import PioplatRelay.DialScheduler
import PioplatRelay.DiscoveryCounters
import PioplatRelay.RlpxTransport
import PioplatRelay.AdminRequests
import PioplatRelay.PeriBackOff
import PioplatRelay.PeriRestart
import PioplatRelay.PeriBroadcasts
import PioplatRelay.PeriOldArrivals
import PioplatRelay.ForkFilterSharing
import PioplatRelay.EnodeUrls
import PioplatRelay.HeaderReplies
import PioplatRelay.DeriveSha
import PioplatRelay.TransactionSizes
import PioplatRelay.SortableStacks
