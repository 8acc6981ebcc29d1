import RobustCache.Lib.Run
import RobustCache.Lib.Trace
import RobustCache.Lib.Amortized
import RobustCache.Lib.Termination
import RobustCache.Lib.Probe
import RobustCache.Lib.Chain
import RobustCache.Lib.OrderedMap
import RobustCache.Lib.Recency
import RobustCache.Lib.Standing
import RobustCache.Lib.Decimal
import RobustCache.Lib.Codec
import RobustCache.Core.Types
import RobustCache.Core.Ring
import RobustCache.Core.Version
import RobustCache.Store.Table
import RobustCache.Store.Layout
import RobustCache.Store.Operations
import RobustCache.Store.Rehash
import RobustCache.Server.Handler
import RobustCache.Server.Lru
import RobustCache.Server.Effects
import RobustCache.Server.Clean
import RobustCache.Server.Refinement
import RobustCache.Server.Purge
import RobustCache.Server.Locks
import RobustCache.Server.Release
import RobustCache.View.Service
import RobustCache.Cluster.Node
import RobustCache.Cluster.Cluster
import RobustCache.Cluster.System
import RobustCache.Cluster.Blocking
import RobustCache.Server.Entries
import RobustCache.Server.Diffs
import RobustCache.Server.Runs
import RobustCache.Server.Arrivals
import RobustCache.Server.Growth
import RobustCache.Server.WorkingSet
import RobustCache.Server.Statistics
import RobustCache.Server.Accounting
import RobustCache.Server.Merge
import RobustCache.Server.Session
import RobustCache.Server.Retarget
import RobustCache.Cluster.Ownership
import RobustCache.Cluster.Identity
import RobustCache.Cluster.Versions
import RobustCache.Cluster.Provenance
import RobustCache.Cluster.Responses
import RobustCache.Cluster.FixedView
import RobustCache.Cluster.Window
import RobustCache.Cluster.Agreement
import RobustCache.Cluster.Register
import RobustCache.Cluster.Statistics
import RobustCache.Cluster.Progress
import RobustCache.Cluster.Drain
import RobustCache.Cluster.Starvation
import RobustCache.View.Membership
import RobustCache.Lib.Circle
import RobustCache.View.Disruption
import RobustCache.View.Detector
import RobustCache.View.Suspicion
import RobustCache.View.Monitor
import RobustCache.Cluster.Monotone
import RobustCache.Client.Routing
import RobustCache.Client.Refresh
import RobustCache.Client.Sessions
import RobustCache.Client.Lookup
import RobustCache.Lib.Unicode
import RobustCache.Client.KeyHash
import RobustCache.Server.Probing
import RobustCache.Server.Frames
import RobustCache.Blog.CacheAside
import RobustCache.Wire.Binary
import RobustCache.Wire.Calls
import RobustCache.Wire.Bounds
import RobustCache.Wire.Connection
import RobustCache.Wire.Delivery
import RobustCache.Wire.Replies
