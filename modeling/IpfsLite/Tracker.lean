import IpfsLite.Lib.Dict
import IpfsLite.TrackerObjects

/-!
`ConnectionStatsTracker`. A call is taken at one instant `now`, at which the heap gives each stream
object that was not collected. `conn_meta` of a connection is one object under two keys, so
`connMeta` holds references into `metas`.
-/

namespace IpfsLite.Tracker

abbrev StreamRef := ℕ

abbrev Heap := StreamRef → Option StreamObj

structure ConnMeta where
  peerId : String
  details : ConnDetails
  startMono : ℚ
  connectedAt : String
  streamsServed : ℕ
  protocols : List String
deriving DecidableEq

structure PeerConnectionStats where
  peerId : String
  totalConnections : ℕ := 0
  currentConnections : ℕ := 0
  firstConnectedAt : Option String := none
  lastConnectedAt : Option String := none
  lastDisconnectedAt : Option String := none
  security : Option String := none
  muxer : Option String := none
  transport : Option String := none

structure PeerStreamStats where
  peerId : String
  totalOpened : ℕ := 0
  totalOpenedOutbound : ℕ := 0
  totalOpenedInbound : ℕ := 0
  totalClosed : ℕ := 0
  currentOpen : ℕ := 0
  currentOpenOutbound : ℕ := 0
  currentOpenInbound : ℕ := 0
  maxConcurrentOpen : ℕ := 0
  totalResets : ℕ := 0
  suspectedLeaks : ℕ := 0
  byProtocol : Dict String ℕ := .empty

structure StreamRecord where
  key : String
  peerId : String
  openedAt : ℚ
  streamRef : Option StreamRef
  protocol : Option String := none
  direction : Direction := .unknown
  streamId : Option String := none
  closedAt : Option ℚ := none
  duration : Option ℚ := none
  wasReset : Bool := false
  suspectedLeak : Bool := false
  countedInProtoTotal : Bool := false
deriving DecidableEq

structure Counters where
  opened : ℕ := 0
  closed : ℕ := 0
  outbound : ℕ := 0
  inbound : ℕ := 0
  leaked : ℕ := 0

end IpfsLite.Tracker

namespace IpfsLite

open Tracker

structure Tracker where
  hasNetwork : Bool
  stats : Dict String PeerConnectionStats
  streams : Dict String StreamRecord
  peerStreamStats : Dict String PeerStreamStats
  peerLifetime : Dict String (ℚ × ℕ)
  totalConnectedEvents : ℕ
  totalDisconnectedEvents : ℕ
  totalOutboundOpened : ℕ
  totalInboundOpened : ℕ
  totalOutboundClosed : ℕ
  totalInboundClosed : ℕ
  totalStreamsByProtocol : Dict String ℕ
  totalStreamsByProtocolOutbound : Dict String ℕ
  totalStreamsByProtocolInbound : Dict String ℕ
  connMeta : Dict ObjId ℕ
  metas : List ConnMeta
  finalizedKeys : Dict String ℚ
  counters : Counters

namespace Tracker

def init : Tracker where
  hasNetwork := false
  stats := .empty
  streams := .empty
  peerStreamStats := .empty
  peerLifetime := .empty
  totalConnectedEvents := 0
  totalDisconnectedEvents := 0
  totalOutboundOpened := 0
  totalInboundOpened := 0
  totalOutboundClosed := 0
  totalInboundClosed := 0
  totalStreamsByProtocol := .empty
  totalStreamsByProtocolOutbound := .empty
  totalStreamsByProtocolInbound := .empty
  connMeta := .empty
  metas := []
  finalizedKeys := .empty
  counters := {}

/-- The notifee callbacks remember the network. -/
def seen (t : Tracker) : Tracker := { t with hasNetwork := true }

def StreamRecord.obj (r : StreamRecord) (heap : Heap) : Option StreamObj := r.streamRef.bind heap

def increment (d : Dict String ℕ) (k : String) : Dict String ℕ := d.set k ((d.get? k).getD 0 + 1)

/-- `setdefault` of a peer's stream stats, followed by an update of them. -/
def withPeer (t : Tracker) (peerId : String) (f : PeerStreamStats → PeerStreamStats) : Tracker :=
  { t with peerStreamStats :=
      t.peerStreamStats.set peerId (f ((t.peerStreamStats.get? peerId).getD { peerId := peerId })) }

def atPeer (t : Tracker) (peerId : String) (f : PeerStreamStats → PeerStreamStats) : Tracker :=
  match t.peerStreamStats.get? peerId with
  | none => t
  | some s => { t with peerStreamStats := t.peerStreamStats.set peerId (f s) }

def maxFinalizedKeys : ℕ := 2000

def finalizedTtlSeconds : ℚ := 300

def markFinalized (keys : Dict String ℚ) (key : String) (now : ℚ) : Dict String ℚ :=
  let marked := keys.set key now
  let expired := marked.entries.takeWhile fun e => finalizedTtlSeconds < now - e.2
  let kept := expired.foldl (fun d e => d.erase e.1) marked
  if kept.entries.length > maxFinalizedKeys then
    match kept.entries with
    | [] => kept
    | e :: _ => kept.erase e.1
  else kept

def recordLifetime (t : Tracker) (peerId : String) (duration : ℚ) : Tracker :=
  let total := (t.peerLifetime.get? peerId).getD (0, 0)
  { t with peerLifetime := t.peerLifetime.set peerId (total.1 + duration, total.2 + 1) }

/-! Connections -/

def ConnMeta.new (peerId : String) (conn : ConnObj) (now : ℚ) (nowTs : String) : ConnMeta where
  peerId := peerId
  details := conn.details
  startMono := now
  connectedAt := nowTs
  streamsServed := 0
  protocols := []

def knownOr (value : String) (old : Option String) : Option String :=
  if value ≠ "unknown" then some value else old

def PeerConnectionStats.connected (s : PeerConnectionStats) (d : ConnDetails) (nowTs : String) :
    PeerConnectionStats :=
  { s with
    totalConnections := s.totalConnections + 1
    currentConnections := s.currentConnections + 1
    firstConnectedAt := s.firstConnectedAt.or (some nowTs)
    lastConnectedAt := some nowTs
    transport := knownOr d.transport s.transport
    security := knownOr d.security s.security
    muxer := knownOr d.muxer s.muxer }

def connected (t : Tracker) (now : ℚ) (nowTs : String) (conn : ConnObj) : Tracker × Except PyError Unit :=
  let t := t.seen
  match conn.peerId with
  | .error e => (t, .error e)
  | .ok pid =>
    let peerId := orUnknown pid
    let ref := t.metas.length
    let t := { t with
      metas := t.metas ++ [ConnMeta.new peerId conn now nowTs]
      connMeta := t.connMeta.set conn.id ref }
    match conn.muxedConn with
    | .error e => (t, .error e)
    | .ok muxed =>
      let stats := (t.stats.get? peerId).getD { peerId := peerId }
      ({ t with
          connMeta := match muxed with
            | some m => t.connMeta.set m ref
            | none => t.connMeta
          totalConnectedEvents := t.totalConnectedEvents + 1
          stats := t.stats.set peerId (stats.connected conn.details nowTs) },
        .ok ())

/-- `pop` of a key unless it holds the metadata of another peer. -/
def popMeta (t : Tracker) (peerId : String) (k : ObjId) : Tracker :=
  match (t.connMeta.get? k).bind (t.metas[·]?) with
  | some m => if m.peerId ≠ peerId then t else { t with connMeta := t.connMeta.erase k }
  | none => { t with connMeta := t.connMeta.erase k }

def evictLoop (len : ℕ) : List (String × PeerConnectionStats) → List String → List String
  | [], toRemove => toRemove
  | (pid, s) :: rest, toRemove =>
    if s.currentConnections = 0 then
      if len - (toRemove.length + 1) ≤ 300 then toRemove ++ [pid]
      else evictLoop len rest (toRemove ++ [pid])
    else evictLoop len rest toRemove

def toRemove (stats : Dict String PeerConnectionStats) : List String :=
  evictLoop stats.entries.length stats.entries []

def staleKeys (connMeta : Dict ObjId ℕ) (metas : List ConnMeta) (now : ℚ) : List ObjId :=
  (connMeta.entries.filter fun e =>
    (metas[e.2]?).any fun m => decide (600 < now - m.startMono)).map Prod.fst

def enforceStatsCapacity (t : Tracker) (now : ℚ) : Tracker :=
  if t.stats.entries.length ≤ 500 then t
  else
    let pids := toRemove t.stats
    let t := { t with
      stats := t.stats.eraseAll pids
      peerStreamStats := t.peerStreamStats.eraseAll pids
      peerLifetime := t.peerLifetime.eraseAll pids }
    if t.connMeta.entries.length > 500 then
      { t with connMeta := t.connMeta.eraseAll ((staleKeys t.connMeta t.metas now).take 300) }
    else t

/-! Streams -/

def countOpened (t : Tracker) (direction : Direction) : Tracker :=
  match direction with
  | .outbound =>
    { t with
      totalOutboundOpened := t.totalOutboundOpened + 1
      counters.outbound := t.counters.outbound + 1 }
  | .inbound =>
    { t with
      totalInboundOpened := t.totalInboundOpened + 1
      counters.inbound := t.counters.inbound + 1 }
  | .unknown => t

def countClosed (t : Tracker) (direction : Direction) : Tracker :=
  match direction with
  | .outbound => { t with totalOutboundClosed := t.totalOutboundClosed + 1 }
  | .inbound => { t with totalInboundClosed := t.totalInboundClosed + 1 }
  | .unknown => t

namespace PeerStreamStats

def openDirection (s : PeerStreamStats) : Direction → PeerStreamStats
  | .outbound =>
    { s with
      totalOpenedOutbound := s.totalOpenedOutbound + 1
      currentOpenOutbound := s.currentOpenOutbound + 1 }
  | .inbound =>
    { s with
      totalOpenedInbound := s.totalOpenedInbound + 1
      currentOpenInbound := s.currentOpenInbound + 1 }
  | .unknown => s

def opened (s : PeerStreamStats) (direction : Direction) (protocol : Option String) : PeerStreamStats :=
  { s.openDirection direction with
    totalOpened := s.totalOpened + 1
    currentOpen := s.currentOpen + 1
    maxConcurrentOpen := max s.maxConcurrentOpen (s.currentOpen + 1)
    byProtocol := increment s.byProtocol (orUnknown protocol) }

def closeDirection (s : PeerStreamStats) : Direction → PeerStreamStats
  | .outbound => { s with currentOpenOutbound := s.currentOpenOutbound - 1 }
  | .inbound => { s with currentOpenInbound := s.currentOpenInbound - 1 }
  | .unknown => s

def closed (s : PeerStreamStats) (direction : Direction) (wasReset : Bool) : PeerStreamStats :=
  { s.closeDirection direction with
    totalClosed := s.totalClosed + 1
    currentOpen := s.currentOpen - 1
    totalResets := if wasReset then s.totalResets + 1 else s.totalResets }

def moveProtocol (s : PeerStreamStats) (oldProtocol : Option String) (protocol : String) :
    PeerStreamStats :=
  let old := orUnknown oldProtocol
  let d := if 0 < (s.byProtocol.get? old).getD 0 then
    s.byProtocol.set old ((s.byProtocol.get? old).getD 0 - 1) else s.byProtocol
  let d := if (d.get? old).getD 0 = 0 then d.erase old else d
  { s with byProtocol := increment d protocol }

def suspectLeak (s : PeerStreamStats) : PeerStreamStats :=
  { s with suspectedLeaks := s.suspectedLeaks + 1 }

end PeerStreamStats

def serveStream (t : Tracker) (muxedId : ObjId) (protocol : Option String) : Tracker :=
  match t.connMeta.get? muxedId with
  | none => t
  | some ref =>
    { t with metas := t.metas.modify ref fun m =>
        { m with
          streamsServed := m.streamsServed + 1
          protocols := match protocol with
            | some p => if p = "" then m.protocols else m.protocols.insert p
            | none => m.protocols } }

def openedStream (t : Tracker) (now : ℚ) (ref : StreamRef) (stream : StreamObj) :
    Tracker × Except PyError Unit :=
  let t := t.seen
  let key := streamKey stream
  let peerId := orUnknown (streamPeerId stream)
  let record : StreamRecord :=
    { key := key, peerId := peerId, openedAt := now, streamRef := some ref
      protocol := streamProtocol stream, direction := streamDirection stream
      streamId := streamId stream }
  let t := { t with streams := t.streams.set key record }
  let t := t.withPeer peerId (·.opened record.direction record.protocol)
  let t := t.countOpened record.direction
  let t := { t with counters.opened := t.counters.opened + 1 }
  match stream.muxedConn with
  | .error e => (t, .error e)
  | .ok none => (t, .ok ())
  | .ok (some c) => (t.serveStream c.id record.protocol, .ok ())

def refreshDirection (t : Tracker) (r : StreamRecord) (obj : Option StreamObj) : Tracker × StreamRecord :=
  if r.direction = .unknown then
    let direction := (obj.map streamDirection).getD .unknown
    let r' := { r with direction := direction }
    match direction, t.peerStreamStats.get? r.peerId with
    | .unknown, _ | _, none => (t, r')
    | _, some _ => ((t.atPeer r.peerId (·.openDirection direction)).countOpened direction, r')
  else (t, r)

def countProtocol (t : Tracker) (r : StreamRecord) : Tracker × StreamRecord :=
  match r.protocol with
  | none => (t, r)
  | some proto =>
    if proto ≠ "" ∧ proto ≠ "unknown" ∧ r.countedInProtoTotal = false then
      let t := { t with totalStreamsByProtocol := increment t.totalStreamsByProtocol proto }
      let t := match r.direction with
        | .outbound => { t with
            totalStreamsByProtocolOutbound := increment t.totalStreamsByProtocolOutbound proto }
        | .inbound => { t with
            totalStreamsByProtocolInbound := increment t.totalStreamsByProtocolInbound proto }
        | .unknown => t
      (t, { r with countedInProtoTotal := true })
    else (t, r)

def refreshRecordMetadata (t : Tracker) (heap : Heap) (r : StreamRecord) : Tracker × StreamRecord :=
  let obj := r.obj heap
  let protocol := r.protocol.or (obj.bind streamProtocol)
  let d := t.refreshDirection { r with protocol := protocol } obj
  let t := match protocol with
    | some p => if r.protocol ≠ some p then d.1.atPeer r.peerId (·.moveProtocol r.protocol p) else d.1
    | none => d.1
  t.countProtocol d.2

def refreshAt (t : Tracker) (heap : Heap) (key : String) (r : StreamRecord) : Tracker × StreamRecord :=
  let p := t.refreshRecordMetadata heap r
  ({ p.1 with streams := p.1.streams.set key p.2 }, p.2)

/-- What `closed_stream` and `_finalize_record` both do with a record that ends. -/
def countStreamClosed (t : Tracker) (r : StreamRecord) (key : String) (now : ℚ) (duration : Option ℚ) :
    Tracker :=
  let t := t.withPeer r.peerId (·.closed r.direction r.wasReset)
  let t := t.countClosed r.direction
  let t := match duration with
    | some d => t.recordLifetime r.peerId d
    | none => t
  { t with finalizedKeys := markFinalized t.finalizedKeys key now }

def readReset (obj : Option StreamObj) : Except PyError Bool :=
  (attrOf StreamObj.state obj).map fun state => decide (state = some "RESET")

/-- The record of a closing stream, taken from the table and refreshed, or made up. -/
def takeRecord (t : Tracker) (heap : Heap) (stream : StreamObj) : Tracker × StreamRecord :=
  let key := streamKey stream
  match t.streams.get? key with
  | some record => { t with streams := t.streams.erase key }.refreshRecordMetadata heap record
  | none =>
    (t, { key := key, peerId := orUnknown (streamPeerId stream), openedAt := 0, streamRef := none })

def closeRecord (t : Tracker) (now : ℚ) (stream : StreamObj) (r : StreamRecord) :
    Tracker × Except PyError Unit :=
  let duration := if 0 < r.openedAt then some (now - r.openedAt) else none
  match readReset (some stream) with
  | .error e => (t, .error e)
  | .ok reset =>
    let r := { r with closedAt := some now, duration := duration, wasReset := r.wasReset || reset }
    let t := t.countStreamClosed r (streamKey stream) now duration
    let t := { t with counters.closed := t.counters.closed + 1 }
    -- the debug message formats the duration
    if duration.isNone then
      (t, .error ⟨.typeError, "unsupported format string passed to NoneType.__format__"⟩)
    else (t, .ok ())

def closedStream (t : Tracker) (now : ℚ) (heap : Heap) (stream : StreamObj) : Tracker × Except PyError Unit :=
  let t := t.seen
  let key := streamKey stream
  if (t.streams.get? key).isNone ∧ (t.finalizedKeys.get? key).isSome then (t, .ok ())
  else
    let p := t.takeRecord heap stream
    p.1.closeRecord now stream p.2

def finalizeRecord (t : Tracker) (heap : Heap) (key : String) (r : StreamRecord) (now : ℚ) :
    Tracker × Except PyError Unit :=
  match readReset (r.obj heap) with
  | .error e => (t, .error e)
  | .ok reset =>
    let t := { t with streams := t.streams.erase key }
    (t.countStreamClosed { r with wasReset := r.wasReset || reset } key now
      (if 0 < r.openedAt then some (now - r.openedAt) else none), .ok ())

def pruneLoop (heap : Heap) (now : ℚ) (connId : ObjId) (muxedId : Option ObjId) :
    List (String × StreamRecord) → Tracker → Tracker × Except PyError Unit
  | [], t => (t, .ok ())
  | (key, record) :: rest, t =>
    if recordOnConn (record.obj heap) connId muxedId then
      match t.finalizeRecord heap key record now with
      | (t, .ok _) => pruneLoop heap now connId muxedId rest t
      | (t, .error e) => (t, .error e)
    else pruneLoop heap now connId muxedId rest t

def PeerConnectionStats.disconnected (s : PeerConnectionStats) (nowTs : String) : PeerConnectionStats :=
  { s with currentConnections := s.currentConnections - 1, lastDisconnectedAt := some nowTs }

def disconnectStats (stats : Dict String PeerConnectionStats) (peerId nowTs : String) :
    Dict String PeerConnectionStats :=
  match stats.get? peerId with
  | some s => stats.set peerId (s.disconnected nowTs)
  | none => stats

/-- `disconnected` up to its loop over the streams. -/
def dropConnection (t : Tracker) (nowTs : String) (peerId : String) (connId : ObjId)
    (muxedId : Option ObjId) : Tracker :=
  let t := t.popMeta peerId connId
  let t := match muxedId with
    | some m => t.popMeta peerId m
    | none => t
  { t with
    totalDisconnectedEvents := t.totalDisconnectedEvents + 1
    stats := disconnectStats t.stats peerId nowTs }

/-- The loop over the streams of a disconnected connection, and the memory cap. -/
def pruneStreams (t : Tracker) (now : ℚ) (heap : Heap) (connId : ObjId) (muxedId : Option ObjId) :
    Tracker × Except PyError Unit :=
  match pruneLoop heap now connId muxedId t.streams.entries t with
  | (t, .error e) => (t, .error e)
  | (t, .ok _) => (if t.stats.entries.length > 2000 then t.enforceStatsCapacity now else t, .ok ())

def disconnected (t : Tracker) (now : ℚ) (nowTs : String) (heap : Heap) (conn : ConnObj) :
    Tracker × Except PyError Unit :=
  let t := t.seen
  match conn.peerId, conn.muxedConn with
  | .error e, _ | .ok _, .error e => (t, .error e)
  | .ok pid, .ok muxedId =>
    (t.dropConnection nowTs (orUnknown pid) conn.id muxedId).pruneStreams now heap conn.id muxedId

/-- The swarm's connection table: the ids of the connections and the connected peers. -/
structure LiveTable where
  ids : List ObjId
  peers : List String

def flagLeak (t : Tracker) (key : String) (r : StreamRecord) : Tracker × StreamRecord :=
  let r := { r with suspectedLeak := true }
  let t := { t with streams := t.streams.set key r }
  let t := t.withPeer r.peerId (·.suspectLeak)
  ({ t with counters.leaked := t.counters.leaked + 1 }, r)

def leakLoop (heap : Heap) (now threshold : ℚ) (live : LiveTable) :
    List (String × StreamRecord) → Tracker → List StreamRecord →
      Tracker × Except PyError (List StreamRecord)
  | [], t, leaked => (t, .ok leaked)
  | (key, record) :: rest, t, leaked =>
    let p := t.refreshAt heap key record
    let obj := p.2.obj heap
    if recordStreamDead obj ||
        (p.1.hasNetwork && recordConnectionGone p.2.peerId obj live.ids live.peers) then
      match p.1.finalizeRecord heap key p.2 now with
      | (t, .ok _) => leakLoop heap now threshold live rest t leaked
      | (t, .error e) => (t, .error e)
    else if p.2.suspectedLeak = false ∧ threshold < now - p.2.openedAt then
      let q := p.1.flagLeak key p.2
      leakLoop heap now threshold live rest q.1 (leaked ++ [q.2])
    else leakLoop heap now threshold live rest p.1 leaked

def checkForLeaks (t : Tracker) (now threshold : ℚ) (heap : Heap) (live : LiveTable) :
    Tracker × Except PyError (List StreamRecord) :=
  leakLoop heap now threshold (if t.hasNetwork then live else ⟨[], []⟩) t.streams.entries t []

def refreshLoop (heap : Heap) : List (String × StreamRecord) → Tracker → Tracker
  | [], t => t
  | (key, record) :: rest, t => refreshLoop heap rest (t.refreshAt heap key record).1

/-- What `stream_stats_snapshot` does to the tracker. -/
def refreshAll (t : Tracker) (heap : Heap) : Tracker := refreshLoop heap t.streams.entries t

/-- The counts of `stream_stats_snapshot`, without its lists of streams and peers. -/
structure StreamSnapshot where
  currentOpenStreams : ℕ
  activeOutboundStreams : ℕ
  activeInboundStreams : ℕ
  activeUnknownStreams : ℕ
  totalOutboundOpened : ℕ
  totalInboundOpened : ℕ
  totalOutboundClosed : ℕ
  totalInboundClosed : ℕ
  openStreamsByProtocol : Dict String ℕ
  totalStreamsByProtocol : Dict String ℕ
  totalStreamsByProtocolOutbound : Dict String ℕ
  totalStreamsByProtocolInbound : Dict String ℕ

/-- What `stream_stats_snapshot` returns once the records are refreshed. -/
def streamSnapshot (t : Tracker) : StreamSnapshot :=
  let activeOutbound := t.streams.countP fun r => r.direction = .outbound
  let activeInbound := t.streams.countP fun r => r.direction = .inbound
  { currentOpenStreams := t.streams.entries.length
    activeOutboundStreams := activeOutbound
    activeInboundStreams := activeInbound
    activeUnknownStreams := t.streams.entries.length - (activeOutbound + activeInbound)
    totalOutboundOpened := t.totalOutboundOpened
    totalInboundOpened := t.totalInboundOpened
    totalOutboundClosed := t.totalOutboundClosed
    totalInboundClosed := t.totalInboundClosed
    openStreamsByProtocol :=
      (t.streams.entries.map fun e => orUnknown e.2.protocol).foldl increment .empty
    totalStreamsByProtocol := t.totalStreamsByProtocol
    totalStreamsByProtocolOutbound := t.totalStreamsByProtocolOutbound
    totalStreamsByProtocolInbound := t.totalStreamsByProtocolInbound }

theorem length_disconnectStats (stats : Dict String PeerConnectionStats) (peerId nowTs : String) :
    (disconnectStats stats peerId nowTs).entries.length = stats.entries.length := by
  unfold disconnectStats
  split
  · next s hs => exact Dict.length_set_of_mem (Dict.mem_keys.mpr ⟨s, hs⟩) _
  · rfl

theorem enforce_metas (t : Tracker) (now : ℚ) : (t.enforceStatsCapacity now).metas = t.metas := by
  unfold enforceStatsCapacity
  dsimp only
  split_ifs <;> rfl

theorem enforce_streams (t : Tracker) (now : ℚ) : (t.enforceStatsCapacity now).streams = t.streams := by
  unfold enforceStatsCapacity
  dsimp only
  split_ifs <;> rfl

end Tracker

end IpfsLite
