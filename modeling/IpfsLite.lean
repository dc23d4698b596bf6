import IpfsLite.PinStore
import IpfsLite.RWLockSafety
import IpfsLite.PinDurability
import IpfsLite.PinRecovery
import IpfsLite.DagUtils
import IpfsLite.Gc
import IpfsLite.GcSafety
import IpfsLite.GcSystem
import IpfsLite.GcSteps
import IpfsLite.GcMarking
import IpfsLite.GcProgress
import IpfsLite.GcPinning
import IpfsLite.GcWriters
import IpfsLite.Lib.Leb128
import IpfsLite.Car
import IpfsLite.CarReading
import IpfsLite.CarImport
import IpfsLite.CarExport
import IpfsLite.CarRoundTrip
import IpfsLite.Ipns
import IpfsLite.IpnsAuthenticity
import IpfsLite.CarGc
import IpfsLite.CarSoundness
import IpfsLite.PinCids
import IpfsLite.Pubsub
import IpfsLite.PubsubDelivery
import IpfsLite.TrackerObjects
import IpfsLite.Tracker
import IpfsLite.TrackerConnMeta
import IpfsLite.TrackerAccounting
import IpfsLite.TrackerClosing
import IpfsLite.Lifecycle
import IpfsLite.LifecycleSafety
import IpfsLite.PubsubLoops
import IpfsLite.IpnsPublish
import IpfsLite.IpnsSequences
import IpfsLite.IpldNode
import IpfsLite.Lib.PrefixCode
import IpfsLite.IpldDocument
import IpfsLite.IpldCanonical
import IpfsLite.DagExact
import IpfsLite.GcExact
import IpfsLite.PinListing
import IpfsLite.TrackerTotals
import IpfsLite.LiveMetrics
import IpfsLite.LiveMetricsCurrent
import IpfsLite.TrackerConserved
import IpfsLite.TrackerCallbacks
import IpfsLite.TrackerLeaks
import IpfsLite.TrackerFinalized
import IpfsLite.TrackerAges
import IpfsLite.TrackerProtocols
import IpfsLite.TrackerEviction
import IpfsLite.MetricsStore
import IpfsLite.PubsubAutoJoin
import IpfsLite.PubsubPasses
import IpfsLite.FileFetch
import IpfsLite.DownloadLimit
import IpfsLite.FileContent
import IpfsLite.FetchAffinity
import IpfsLite.FetchHints
import IpfsLite.IpnsBounds
import IpfsLite.Lib.Calendar
import IpfsLite.PyDatetime
import IpfsLite.IpnsExpiry
import IpfsLite.IpnsResolve
import IpfsLite.CarErrors
import IpfsLite.CarAtomic
import IpfsLite.RefsExact
import IpfsLite.PyEquality
import IpfsLite.PyJson
import IpfsLite.Routing
import IpfsLite.IpldReading
import IpfsLite.IpldRoundTrip
import IpfsLite.KeepAlive
import IpfsLite.KeepAliveSpacing
import IpfsLite.IpldFinite
import IpfsLite.CarFraming
import IpfsLite.ContentFrame
import IpfsLite.GcContent
import IpfsLite.CarTransfer
import IpfsLite.Lib.Linearizability
import IpfsLite.BlockApi
import IpfsLite.BlockApiLinear
import IpfsLite.RepoStat
import IpfsLite.TempFiles
import IpfsLite.DagJson
import IpfsLite.JsonValues
import IpfsLite.DagApi
import IpfsLite.NameApi
import IpfsLite.PubsubTopicsFile
import IpfsLite.DelegatedRouting
import IpfsLite.RWLockProgress
import IpfsLite.SwarmPeers
import IpfsLite.GetMany
