import EdgeCdnStore.Programs
import EdgeCdnStore.FileTree
import EdgeCdnStore.Logger
import EdgeCdnStore.Io
import EdgeCdnStore.DiskCache
import EdgeCdnStore.CacheKeys
import EdgeCdnStore.FileFrames
import EdgeCdnStore.Proxy
import EdgeCdnStore.DiskPaths
import EdgeCdnStore.CalmCalls
import EdgeCdnStore.DiskSpecs
import EdgeCdnStore.Operations
import EdgeCdnStore.Refinement
import EdgeCdnStore.SizeGauge
import EdgeCdnStore.Eviction
import EdgeCdnStore.FinishFaults
import EdgeCdnStore.Pools
import EdgeCdnStore.WritePools
import EdgeCdnStore.PendingWrites
import EdgeCdnStore.DiskCalls
import EdgeCdnStore.Courses
import EdgeCdnStore.Tasks
import EdgeCdnStore.GaugeRaces
import EdgeCdnStore.Slots
import EdgeCdnStore.Lanes
import EdgeCdnStore.KeyCalls
import EdgeCdnStore.Quiescence
import EdgeCdnStore.Versions
import EdgeCdnStore.Counters
import EdgeCdnStore.Overlay
import EdgeCdnStore.MapStores
import EdgeCdnStore.TieredRuns
import EdgeCdnStore.StaleObjects
import EdgeCdnStore.LinkedTree
import EdgeCdnStore.Inspector
import EdgeCdnStore.CallFrames
import EdgeCdnStore.Sites
import EdgeCdnStore.Restart
import EdgeCdnStore.TreeViews
import EdgeCdnStore.Unwinding
import EdgeCdnStore.KeyViews
import EdgeCdnStore.KeyIsolation
import EdgeCdnStore.OpenHits
import EdgeCdnStore.Misses
import EdgeCdnStore.MissRuns
import EdgeCdnStore.Ranges
import EdgeCdnStore.Authority
import EdgeCdnStore.PurgeRaces
import EdgeCdnStore.PurgeFaults
import EdgeCdnStore.UpdateFaults
import EdgeCdnStore.SlowCommit
import EdgeCdnStore.MissHandlers
import EdgeCdnStore.TmpFiles
import EdgeCdnStore.FanOut
import EdgeCdnStore.SecondaryCopies
import EdgeCdnStore.Numerals
import EdgeCdnStore.SelfRequests
import EdgeCdnStore.Admission
import EdgeCdnStore.Comparators
import EdgeCdnStore.Listing
import EdgeCdnStore.Provenance
import EdgeCdnStore.Requests
import EdgeCdnStore.HeldFiles
import EdgeCdnStore.ClientMaps
import EdgeCdnStore.Visibility
import EdgeCdnStore.UndisturbedMisses
import EdgeCdnStore.Holders
import EdgeCdnStore.Bystanders
import EdgeCdnStore.Markup
import EdgeCdnStore.Places
import EdgeCdnStore.Pages
import EdgeCdnStore.Navigation
import EdgeCdnStore.RangeBounds
import EdgeCdnStore.Books
import EdgeCdnStore.Lifetimes
