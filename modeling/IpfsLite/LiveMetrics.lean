import IpfsLite.TrackerAccounting

/-!
`update_live_metrics` on the gauges of connections and streams. The labels of a gauge stay once they
are used. `table` is the `connections` of the swarm at the call.
-/

namespace IpfsLite.Metrics

open Tracker Runs

/-! `_extract_conn_details` -/

structure MuxedTypes where
  name : String
  secured : Attr String

/-- `direction`, `maddr` and `rawConn` are what the nested `getattr` of each find. -/
structure SwarmConn where
  direction : Attr DirectionAttr
  actualAddrs : Attr (List String)
  maddr : Attr String
  muxedConn : Attr MuxedTypes
  rawConn : Attr String

structure Layers where
  transport : String := "unknown"
  security : String := "unknown"
  muxer : String := "unknown"

def contains (s sub : String) : Bool := sub.toList <:+: s.toList

def muxerLayers (name : String) : Layers :=
  if contains name "QUIC" then ⟨"quic-v1", "tls1.3", "quic"⟩
  else if contains name "Yamux" then { transport := "tcp", muxer := "yamux" }
  else if contains name "Mplex" then { transport := "tcp", muxer := "mplex" }
  else {}

def securedLayers (l : Layers) : Option String → Layers
  | none => l
  | some name =>
    if contains name "Noise" then { l with security := "Noise" }
    else if contains name "TLS" then { l with security := "tls" }
    else l

def rawLayers (l : Layers) : Option String → Layers
  | none => l
  | some name =>
    if l.transport ≠ "unknown" then l
    else if contains name "TCP" || contains name "Socket" then { l with transport := "tcp" }
    else if contains name "WebSocket" then { l with transport := "websocket" }
    else if contains name "QUIC" then { l with transport := "quic-v1" }
    else l

/-- An attribute that raises leaves what was found before it. -/
def typeLayers (c : SwarmConn) : Layers :=
  match c.muxedConn with
  | .error _ => {}
  | .ok muxed =>
    let l := (muxed.map fun m => muxerLayers m.name).getD {}
    match (muxed.map MuxedTypes.secured).getD (.ok none) with
    | .error _ => l
    | .ok secured =>
      let l := securedLayers l secured
      match c.rawConn with
      | .error _ => l
      | .ok raw => rawLayers l raw

def addrLayers (l : Layers) : Option String → Layers
  | none => l
  | some addr =>
    if contains addr "/quic-v1" || contains addr "/quic" then
      { transport := "quic-v1"
        security := if l.security = "unknown" then "tls1.3" else l.security
        muxer := if l.muxer = "unknown" then "quic" else l.muxer }
    else if contains addr "/ws" || contains addr "/wss" then { l with transport := "websocket" }
    else if contains addr "/tcp/" && l.transport = "unknown" then { l with transport := "tcp" }
    else l

def remoteAddr (c : SwarmConn) : Option String :=
  tryOr none do
    match ← c.actualAddrs with
    | some (addr :: _) => return some addr
    | _ => c.maddr

def connDirection (c : SwarmConn) : String :=
  match c.direction with
  | .ok (some d) => (d.name.getD d.str).toLower
  | _ => "unknown"

def extractConnDetails (c : SwarmConn) : ConnDetails :=
  let l := addrLayers (typeLayers c) (remoteAddr c)
  { direction := connDirection c
    transport := l.transport
    security :=
      if l.muxer ∈ ["yamux", "mplex"] ∧ l.security = "unknown" then "Noise" else l.security
    muxer := l.muxer
    remoteAddr := remoteAddr c }

/-! `connection_stats_snapshot` -/

/-- The value of a peer in the table: a list of connections or one connection. -/
inductive SwarmEntry
  | conns (cs : List SwarmConn)
  | single (c : SwarmConn)

structure ConnSnapshot where
  currentActiveConnections : ℕ := 0
  byTransport : Dict String ℕ := .empty
  byDirection : Dict String ℕ := .empty

def ConnSnapshot.count (s : ConnSnapshot) (c : SwarmConn) : ConnSnapshot where
  currentActiveConnections := s.currentActiveConnections + 1
  byTransport := increment s.byTransport (extractConnDetails c).transport
  byDirection := increment s.byDirection (extractConnDetails c).direction

def ConnSnapshot.countEntry (s : ConnSnapshot) : SwarmEntry → ConnSnapshot
  | .conns cs => cs.foldl count s
  | .single _ => { s with currentActiveConnections := s.currentActiveConnections + 1 }

def connectionSnapshot (t : Tracker) (table : List SwarmEntry) : ConnSnapshot :=
  if t.hasNetwork then table.foldl ConnSnapshot.countEntry {} else {}

/-! `update_live_metrics` -/

structure Gauges where
  swarmPeers : ℕ := 0
  swarmConnectionsTotal : ℕ := 0
  swarmConnections : Dict (String × String) ℕ := .empty
  streamsActive : Dict String ℕ := .empty
  streamsByProtocolTotal : Dict (String × String) ℕ := .empty
  streamsOutboundActive : ℕ := 0
  streamsInboundActive : ℕ := 0
  streamsActiveByDirection : Dict String ℕ := .empty

/-- `labels(..).set(count)` for every item of a dictionary of counts. -/
def setCounts {κ : Type} [DecidableEq κ] (label : String → κ) (counts : Dict String ℕ) (g : Dict κ ℕ) :
    Dict κ ℕ := counts.entries.foldl (fun g e => g.set (label e.1) e.2) g

def setTotals (s : StreamSnapshot) (g : Dict (String × String) ℕ) : Dict (String × String) ℕ :=
  s.totalStreamsByProtocol.entries.foldl (fun g e =>
    ((g.set (e.1, "all") e.2).set (e.1, "outbound")
      ((s.totalStreamsByProtocolOutbound.get? e.1).getD 0)).set (e.1, "inbound")
        ((s.totalStreamsByProtocolInbound.get? e.1).getD 0)) g

def SwarmEntry.size : SwarmEntry → ℕ
  | .conns cs => cs.length
  | .single _ => 1

structure Scrape where
  tracker : Tracker
  gauges : Gauges

def Scrape.init : Scrape := ⟨Tracker.init, {}⟩

def setConnections (snap : ConnSnapshot) (table : List SwarmEntry) (found : Bool) (g : Gauges) : Gauges :=
  let total := if snap.currentActiveConnections = 0 ∧ found then (table.map SwarmEntry.size).sum
    else snap.currentActiveConnections
  { g with
    swarmPeers := if found then table.length else g.swarmPeers
    swarmConnectionsTotal := total
    swarmConnections := setCounts (("all", ·)) snap.byDirection
      (setCounts ((·, "all")) snap.byTransport g.swarmConnections) }

def setStreams (s : StreamSnapshot) (g : Gauges) : Gauges :=
  { g with
    streamsActive := setCounts (fun p => p) s.openStreamsByProtocol g.streamsActive
    streamsByProtocolTotal := setTotals s g.streamsByProtocolTotal
    streamsOutboundActive := s.activeOutboundStreams
    streamsInboundActive := s.activeInboundStreams
    streamsActiveByDirection := (g.streamsActiveByDirection.set "outbound" s.activeOutboundStreams).set
      "inbound" s.activeInboundStreams }

/-- `found` says whether the peer's host gives its swarm. -/
def updateLiveMetrics (s : Scrape) (heap : Heap) (table : List SwarmEntry) (found : Bool) : Scrape :=
  let t := { s.tracker with hasNetwork := s.tracker.hasNetwork || found }
  let g := setConnections (connectionSnapshot t table) table found s.gauges
  let t := t.refreshAll heap
  ⟨t, setStreams t.streamSnapshot g⟩

inductive Event
  | call (call : Call)
  | update (heap : Heap) (table : List SwarmEntry) (found : Bool)

def step (s : Scrape) : Event → Scrape
  | .call call => { s with tracker := s.tracker.exec call }
  | .update heap table found => updateLiveMetrics s heap table found

end IpfsLite.Metrics
