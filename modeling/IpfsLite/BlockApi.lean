import IpfsLite.MetricsStore

/-!
The block routes of the HTTP API (`api/routers/blocks.py`, `refs/local` and `repo/stat` of `repo.py`) with
any number of requests in progress. A step of a request is one awaited call of the block store that takes
effect, with the code up to the next `await`.
-/

namespace IpfsLite.BlockApi

open Function

inductive IPFSLiteError
  | base
  | blockNotFound
  | pinNotFound
  | pin
  | peerNotStarted
  | routing
  | carParse
  | invalidCid
  | dagTooDeep
  | payloadTooLarge

inductive Body
  | detail (message : String)
  | keySize (key : String) (size : ℕ)
  | octets (data : Bytes)
  | hashError (hash error : String)
  | refs (refs : List String)
  | repoStat (numObjects repoSize : ℕ) (repoPath version : String)
deriving DecidableEq

structure Response where
  status : ℕ
  body : Body
deriving DecidableEq

def statusCode : IPFSLiteError → ℕ
  | .blockNotFound | .pinNotFound | .routing => 404
  | .peerNotStarted => 503
  | .pin => 409
  | .carParse | .invalidCid | .dagTooDeep => 400
  | .payloadTooLarge => 413
  | .base => 500

def ipfsLiteExceptionHandler (type : IPFSLiteError) (message : String) : Response :=
  ⟨statusCode type, .detail message⟩

def genericExceptionHandler : Response := ⟨500, .detail "Internal server error"⟩

structure BlockLib extends CidLib where
  /-- `compute_cid_v1` with the codec `raw`. -/
  computeCidV1 : Bytes → Bytes
  formatCidBytes : Bytes → String

structure Config where
  blockstorePath : Option String
  blockstoreType : String

inductive Request
  | blockStat (arg : String)
  | blockGet (arg : String)
  | blockPut (data : Bytes)
  | blockRm (arg : String)
  | refsLocal
deriving DecidableEq

inductive Pc
  | reading (cid : Bytes)
  | storing (task : MetricsBlockStore.Task)
  | listing
  | answering (r : Response)

section Handlers

variable (lib : BlockLib)

def parseArg (arg : String) : Except Response Bytes :=
  match lib.parseCid arg with
  | .error e =>
    .error (if e.type.isValueError then ipfsLiteExceptionHandler .invalidCid e.message else genericExceptionHandler)
  | .ok cid => .ok (lib.cidToBytes cid)

def start : Request → Pc
  | .blockStat arg | .blockGet arg =>
    match parseArg lib arg with
    | .error r => .answering r
    | .ok cid => .reading cid
  | .blockPut data => .storing (MetricsBlockStore.Call.putBlock (lib.computeCidV1 data) data).task
  | .blockRm arg =>
    match lib.parseCid arg with
    | .error _ => .answering genericExceptionHandler
    | .ok cid => .storing (MetricsBlockStore.Call.deleteBlock (lib.cidToBytes cid)).task
  | .refsLocal => .listing

def afterRead : Request → Option Bytes → Response
  | .blockStat arg, some data => ⟨200, .keySize arg data.length⟩
  | .blockStat arg, none | .blockGet arg, none => ipfsLiteExceptionHandler .blockNotFound arg
  | .blockGet _, some data => ⟨200, .octets data⟩
  | _, _ => genericExceptionHandler

def afterStore : Request → Response
  | .blockPut data => ⟨200, .keySize (lib.formatCidBytes (lib.computeCidV1 data)) data.length⟩
  | .blockRm arg => ⟨200, .hashError arg ""⟩
  | _ => genericExceptionHandler

def allKeys (keys : List Bytes) : Except PyError (List String) :=
  keys.mapM fun c => (lib.parseCidBytes c).map lib.formatCidForDisplay

def afterKeys (keys : List Bytes) : Response :=
  match allKeys lib keys with
  | .error _ => genericExceptionHandler
  | .ok refs => ⟨200, .refs refs⟩

def runPc (req : Request) (w : MetricsBlockStore.World) : Pc → Option (MetricsBlockStore.World × Pc)
  | .reading cid => some (w, .answering (afterRead req (w.store.get? cid)))
  | .storing task =>
    match MetricsBlockStore.advance false w task with
    | (w, some task) => some (w, .storing task)
    | (w, none) => some (w, .answering (afterStore lib req))
  | .listing => some (w, .answering (afterKeys lib w.store.keys))
  | .answering _ => none

/-- The awaited call raises, before it has changed anything. Only `delete_block` goes on, where
`get_size` has raised. -/
def failPc : Pc → Option Pc
  | .reading _ | .listing => some (.answering genericExceptionHandler)
  | .storing (.deleteSizes cid) => some (.storing (.deleteErases cid 0))
  | .storing (.putCounts _ _) | .storing (.deleteCounts _) => none
  | .storing _ => some (.answering genericExceptionHandler)
  | .answering _ => none

/-- `get_repo_stat`: the keys that are left, with what has been added up. -/
inductive StatPc
  | listing
  | sizing (numObjects repoSize : ℕ) (cid : Bytes) (keys : List String)
  | answering (r : Response)

variable (config : Config)

def repoPath : String :=
  let path := config.blockstorePath
  let path := if config.blockstoreType = "memory" then some "" else path
  path.getD ""

def nextSize (numObjects repoSize : ℕ) : List String → StatPc
  | [] => .answering ⟨200, .repoStat numObjects repoSize (repoPath config) "1"⟩
  | k :: keys =>
    match lib.parseCid k with
    | .error _ => .answering genericExceptionHandler
    | .ok cid => .sizing numObjects repoSize (lib.cidToBytes cid) keys

def runStat (w : MetricsBlockStore.World) : StatPc → Option StatPc
  | .listing =>
    match allKeys lib w.store.keys with
    | .error _ => some (.answering genericExceptionHandler)
    | .ok keys => some (nextSize lib config keys.length 0 keys)
  | .sizing numObjects repoSize cid keys => some (nextSize lib config numObjects (repoSize + w.size cid) keys)
  | .answering _ => none

def failStat : StatPc → Option StatPc
  | .listing | .sizing .. => some (.answering genericExceptionHandler)
  | .answering _ => none

end Handlers

inductive ReqState
  | idle
  | active (req : Request) (pc : Pc)
  | answered

inductive StatState
  | idle
  | active (pc : StatPc)
  | answered

structure State (κ : Type*) where
  world : MetricsBlockStore.World
  reqs : κ → ReqState
  stats : κ → StatState

inductive Event (κ : Type*)
  | request (k : κ) (req : Request)
  | run (k : κ)
  | fail (k : κ)
  | respond (k : κ) (r : Response)
  | statRequest (k : κ)
  | statRun (k : κ)
  | statFail (k : κ)
  | statRespond (k : κ) (r : Response)

namespace State

variable {κ : Type*} [DecidableEq κ] (lib : BlockLib) (config : Config)

def initial (w : MetricsBlockStore.World) : State κ := ⟨w, fun _ => .idle, fun _ => .idle⟩

def setReq (s : State κ) (k : κ) (r : ReqState) : State κ := { s with reqs := update s.reqs k r }

def setStat (s : State κ) (k : κ) (r : StatState) : State κ := { s with stats := update s.stats k r }

def step (s : State κ) : Event κ → Option (State κ)
  | .request k req =>
    match s.reqs k with
    | .idle => some (s.setReq k (.active req (start lib req)))
    | _ => none
  | .run k =>
    match s.reqs k with
    | .active req pc => (runPc lib req s.world pc).map fun p => { s.setReq k (.active req p.2) with world := p.1 }
    | _ => none
  | .fail k =>
    match s.reqs k with
    | .active req pc => (failPc pc).map fun pc => s.setReq k (.active req pc)
    | _ => none
  | .respond k r =>
    match s.reqs k with
    | .active _ (.answering r') => if r' = r then some (s.setReq k .answered) else none
    | _ => none
  | .statRequest k =>
    match s.stats k with
    | .idle => some (s.setStat k (.active .listing))
    | _ => none
  | .statRun k =>
    match s.stats k with
    | .active pc => (runStat lib config s.world pc).map fun pc => s.setStat k (.active pc)
    | _ => none
  | .statFail k =>
    match s.stats k with
    | .active pc => (failStat pc).map fun pc => s.setStat k (.active pc)
    | _ => none
  | .statRespond k r =>
    match s.stats k with
    | .active (.answering r') => if r' = r then some (s.setStat k .answered) else none
    | _ => none

def Next (s : State κ) (e : Event κ) (s' : State κ) : Prop := s.step lib config e = some s'

end State

end IpfsLite.BlockApi
