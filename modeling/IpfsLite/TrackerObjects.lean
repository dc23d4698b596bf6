import IpfsLite.Exceptions

/-!
The libp2p streams and connections as the connection tracker looks at them. An `Attr` is what
`getattr(x, name, None)` gives: `none` where the attribute is missing or `None`, an exception where
reading it raises.
-/

namespace IpfsLite.Tracker

abbrev ObjId := ℕ

abbrev Attr (α : Type) := Except PyError (Option α)

/-- A `try` block whose `except Exception` falls back to a value. -/
def tryOr {α : Type} (fallback : α) : Except PyError α → α
  | .ok a => a
  | .error _ => fallback

inductive Direction
  | outbound
  | inbound
  | unknown
deriving DecidableEq

structure DirectionAttr where
  name : Option String
  str : String

structure MuxedConnObj where
  id : ObjId
  peerId : Attr String
  isClosed : Attr Bool

structure SwarmConnObj where
  id : ObjId
  isClosed : Attr Bool

structure MuxedStreamObj where
  id : ObjId
  muxedConn : Attr MuxedConnObj
  direction : Attr DirectionAttr
  isOutbound : Attr Bool
  isInitiator : Attr Bool
  streamId : Attr String
  isClosed : Attr Bool
  state : Attr String

structure StreamObj where
  id : ObjId
  muxedStream : Attr MuxedStreamObj
  muxedConn : Attr MuxedConnObj
  swarmConn : Attr SwarmConnObj
  getProtocol : Attr String
  direction : Attr DirectionAttr
  state : Attr String
  isClosed : Attr Bool

/-- What `_extract_conn_details` returns. -/
structure ConnDetails where
  direction : String
  transport : String
  security : String
  muxer : String
  remoteAddr : Option String
deriving DecidableEq

/-- `peerId` is what `_extract_peer_id` returns or raises. -/
structure ConnObj where
  id : ObjId
  muxedConn : Attr ObjId
  peerId : Attr String
  details : ConnDetails

def orUnknown : Option String → String
  | some s => if s = "" then "unknown" else s
  | none => "unknown"

def streamKey (s : StreamObj) : String :=
  tryOr s!"obj:{s.id}" do
    match ← s.muxedStream with
    | none => return s!"obj:{s.id}"
    | some m =>
      let conn ← match ← m.muxedConn with
        | some c => pure (some c)
        | none => s.muxedConn
      return s!"conn:{(conn.map MuxedConnObj.id).getD 0}:stream:{m.id}"

def streamPeerId (s : StreamObj) : Option String :=
  tryOr none do
    match ← s.muxedConn with
    | none => return none
    | some c => c.peerId

def streamProtocol (s : StreamObj) : Option String := tryOr none s.getProtocol

def DirectionAttr.read (d : DirectionAttr) : Option Direction :=
  let name := (d.name.getD "").toLower
  let s := d.str.toLower.toList
  if name = "inbound" then some .inbound
  else if name = "outbound" then some .outbound
  else if "inbound".toList <:+: s then some .inbound
  else if "outbound".toList <:+: s then some .outbound
  else none

def streamDirection (s : StreamObj) : Direction :=
  tryOr .unknown do
    match (← s.direction).bind DirectionAttr.read with
    | some d => return d
    | none =>
      match ← s.muxedStream with
      | none => return .unknown
      | some m =>
        match (← m.direction).bind DirectionAttr.read with
        | some d => return d
        | none =>
          match ← m.isOutbound with
          | some out => return if out then .outbound else .inbound
          | none =>
            match ← m.isInitiator with
            | some init => return if init then .outbound else .inbound
            | none => return .unknown

def streamId (s : StreamObj) : Option String :=
  tryOr none do
    match ← s.muxedStream with
    | none => return none
    | some m => m.streamId

def muxedStreamDead (s : StreamObj) : Bool :=
  tryOr false do
    match ← s.muxedStream with
    | none => return false
    | some m =>
      if (← m.isClosed) = some true then return true
      else return (← m.state).any (· ∈ ["CLOSED", "RESET", "closed", "reset"])

def stateTerminal (s : StreamObj) : Bool :=
  tryOr false (return (← s.state).any (· ∈ ["CLOSE_BOTH", "RESET", "ERROR"]))

def swarmConnClosed (s : StreamObj) : Bool :=
  tryOr false do
    match ← s.swarmConn with
    | none => return false
    | some c => return (← c.isClosed) = some true

def muxedConnClosed (s : StreamObj) : Bool :=
  tryOr false do
    match ← s.muxedConn with
    | none => return false
    | some c => return (← c.isClosed) = some true

/-- `none` is the reference of a stream object that was collected. -/
def recordStreamDead : Option StreamObj → Bool
  | none => true
  | some s =>
    match s.isClosed with
    | .ok (some closed) => closed
    | _ => muxedStreamDead s || stateTerminal s || swarmConnClosed s || muxedConnClosed s

def attrOf {α : Type} (attr : StreamObj → Attr α) : Option StreamObj → Attr α
  | none => .ok none
  | some s => attr s

def recordConnectionGone (peerId : String) (ref : Option StreamObj) (liveIds : List ObjId)
    (livePeers : List String) : Bool :=
  tryOr false do
    let swarmConn ← attrOf StreamObj.swarmConn ref
    if swarmConn.any (·.id ∈ liveIds) then return false
    else
      let muxedConn ← attrOf StreamObj.muxedConn ref
      if muxedConn.any (·.id ∈ liveIds) then return false
      else if peerId ≠ "unknown" ∧ peerId ∉ livePeers then return true
      else return swarmConn.isSome || muxedConn.isSome

def recordOnConn (ref : Option StreamObj) (connId : ObjId) (muxedId : Option ObjId) : Bool :=
  tryOr false do
    if (← attrOf StreamObj.swarmConn ref).any (·.id = connId) then return true
    else match muxedId with
      | none => return false
      | some m => return (← attrOf StreamObj.muxedConn ref).any (·.id = m)

end IpfsLite.Tracker
