import IpfsLite.DagUtils

/-!
`get_file` and the downloads of `files_service.py`. An exchange has a state of its own, which its
calls may change. A stream is the chunks that it yields and the exception that ends it, if any.
-/

namespace IpfsLite.Files

structure FileLib extends DagLib where
  isDirectoryNode : Bytes → Except PyError Bool
  unixfsData : PyValue → Bytes

structure Stream where
  chunks : List Bytes
  ends : Option PyError
deriving DecidableEq

namespace Stream

def empty : Stream := ⟨[], none⟩

def single (chunk : Bytes) : Stream := ⟨[chunk], none⟩

def raises (e : PyError) : Stream := ⟨[], some e⟩

def bytes (s : Stream) : Bytes := s.chunks.flatten

def join (s : Stream) : Except PyError Bytes :=
  match s.ends with
  | none => .ok s.bytes
  | some e => .error e

end Stream

/-- What `get_block` returns: the data, or the data with the peer that served it. -/
inductive Reply
  | plain (data : Option Bytes)
  | withPeer (data : Option Bytes) (peerId : Option Bytes)

def Reply.data : Reply → Option Bytes
  | .plain data | .withPeer data _ => data

structure Exchange (σ : Type) where
  getBlock : σ → (cid : Bytes) → (peerId : Option Bytes) → σ × Except PyError Reply
  getBlocksBatch : Option (σ → (cids : List Bytes) → (peerId : Option Bytes) → (batchSize : ℕ) →
    σ × Except PyError Unit)

structure Fetch (σ : Type) where
  exchange : σ
  lastGoodPeer : Option Bytes

section Fetching

variable {σ : Type} (lib : FileLib) (ex : Exchange σ) (bitswapBatchFetch : Bool)

def fetchBlock (f : Fetch σ) (cid : Bytes) : Fetch σ × Except PyError (Option Bytes) :=
  match ex.getBlock f.exchange cid f.lastGoodPeer with
  | (x, .error e) => ({ f with exchange := x }, .error e)
  | (x, .ok (.plain data)) => ({ f with exchange := x }, .ok data)
  | (x, .ok (.withPeer data peerId)) => (⟨x, peerId.or f.lastGoodPeer⟩, .ok data)

def notFound (cid : Bytes) : PyError :=
  match lib.parseCidBytes cid with
  | .error e => e
  | .ok c => ⟨.blockNotFoundError, s!"Block not found for CID: {lib.formatCidForDisplay c}"⟩

def noCid : PyError := ⟨.attributeError, "'Link' object has no attribute 'cid'"⟩

def linkCids : List (Option Bytes) → Except PyError (List Bytes)
  | [] => .ok []
  | none :: _ => .error noCid
  | some cid :: links => (linkCids links).map (cid :: ·)

/-- How the batch ends makes no difference. -/
def prefetch (f : Fetch σ) (batchSize : ℕ) (batch : List (Option Bytes)) : Except PyError (Fetch σ) :=
  match ex.getBlocksBatch with
  | none => .ok f
  | some getBlocksBatch =>
    if bitswapBatchFetch ∧ 1 < batch.length then
      (linkCids batch).map fun cids =>
        { f with exchange := (getBlocksBatch f.exchange cids f.lastGoodPeer batchSize).1 }
    else .ok f

section Links

variable (fetch : Fetch σ → Bytes → Fetch σ × Stream)

def yieldLinks : Fetch σ → List (Option Bytes) → Fetch σ × Stream
  | f, [] => (f, .empty)
  | f, none :: _ => (f, .raises noCid)
  | f, some cid :: links =>
    let (f, s) := fetch f cid
    match s.ends with
    | some _ => (f, s)
    | none =>
      let (f, rest) := yieldLinks f links
      (f, ⟨s.chunks ++ rest.chunks, rest.ends⟩)

/-- Every round takes a batch off the links, so as many rounds as there are links are enough. -/
def yieldBatches (batchSize : ℕ) : ℕ → Fetch σ → List (Option Bytes) → Fetch σ × Stream
  | 0, f, _ => (f, .empty)
  | k + 1, f, links =>
    if links = [] then (f, .empty)
    else
      match prefetch ex bitswapBatchFetch f batchSize (links.take batchSize) with
      | .error e => (f, .raises e)
      | .ok f =>
        let (f, s) := yieldLinks fetch f (links.take batchSize)
        match s.ends with
        | some _ => (f, s)
        | none =>
          let (f, rest) := yieldBatches batchSize k f (links.drop batchSize)
          (f, ⟨s.chunks ++ rest.chunks, rest.ends⟩)

def yieldDirectory (f : Fetch σ) (links : List (Option Bytes)) : Fetch σ × Stream :=
  match links with
  | [] => (f, .empty)
  | none :: _ => (f, .raises noCid)
  | some cid :: _ => fetch f cid

def yieldFile (f : Fetch σ) (pb : DagPb) : Fetch σ × Stream :=
  if pb.links = [] then
    (f, if lib.unixfsData pb.unixfs = [] then .empty else .single (lib.unixfsData pb.unixfs))
  else
    yieldBatches ex bitswapBatchFetch fetch (if bitswapBatchFetch then 32 else 1) pb.links.length f pb.links

def yieldDagPb (f : Fetch σ) (data : Bytes) : Fetch σ × Stream :=
  match lib.isDirectoryNode data with
  | .error e => (f, .raises e)
  | .ok isDirectory =>
    match lib.decodeDagPb data with
    | .error e => (f, .raises e)
    | .ok pb =>
      if isDirectory then yieldDirectory fetch f pb.links else yieldFile lib ex bitswapBatchFetch fetch f pb

def yieldBlock (f : Fetch σ) (cid data : Bytes) : Fetch σ × Stream :=
  match lib.parseCidCodec cid with
  | .error e => (f, .raises e)
  | .ok codec =>
    if codec = "raw" then (f, .single data)
    else if codec = "dag-pb" then yieldDagPb lib ex bitswapBatchFetch fetch f data
    else (f, .empty)

end Links

def recursionError : PyError := ⟨.runtimeError, "maximum recursion depth exceeded"⟩

/-- `fetch_stream`, with a bound on the depth of its recursion. -/
def fetchStream : ℕ → Fetch σ → Bytes → Fetch σ × Stream
  | 0, f, _ => (f, .raises recursionError)
  | depth + 1, f, cid =>
    match fetchBlock ex f cid with
    | (f, .error e) => (f, .raises e)
    | (f, .ok none) => (f, .raises (notFound lib cid))
    | (f, .ok (some data)) => yieldBlock lib ex bitswapBatchFetch (fetchStream depth) f cid data

end Fetching

section Modes

def sliceIndex (length : ℕ) (i : ℤ) : ℕ :=
  if i < 0 then (i + length).toNat else min i.toNat length

def slice (b : Bytes) (start stop : ℤ) : Bytes :=
  (b.take (sliceIndex b.length stop)).drop (sliceIndex b.length start)

structure SeekableReader where
  data : Bytes
  pos : ℕ := 0

def SeekableReader.read (r : SeekableReader) (n : ℤ) : Bytes × SeekableReader :=
  if n = -1 then (r.data.drop r.pos, { r with pos := r.data.length })
  else
    let result := slice r.data r.pos (r.pos + n)
    (result, { r with pos := r.pos + result.length })

def writeOutput (s : Stream) : Bytes × Option PyError := (s.chunks.foldl (· ++ ·) [], s.ends)

def bufferReader (s : Stream) : Except PyError SeekableReader := s.join.map fun data => { data }

end Modes

section Download

def tooLarge (maxSize : ℤ) : PyError :=
  ⟨.payloadTooLargeError, s!"download exceeded {maxSize} bytes"⟩

/-- The loop over the chunks after the first, `size` bytes in. -/
def yieldWithin (maxSize : ℤ) : ℕ → List Bytes → Option PyError → Stream
  | _, [], ends => ⟨[], ends⟩
  | size, chunk :: chunks, ends =>
    if maxSize < (size + chunk.length : ℕ) then .raises (tooLarge maxSize)
    else
      let rest := yieldWithin maxSize (size + chunk.length) chunks ends
      ⟨chunk :: rest.chunks, rest.ends⟩

def effectiveMaxSize (maxSize : Option ℤ) (maxDownloadSize : ℤ) : ℤ :=
  if maxSize.getD 0 = 0 then maxDownloadSize else maxSize.getD 0

/-- `content` is what `get_file(.., stream=True)` returns or raises. -/
def getFileStream (content : Except PyError Stream) (maxSize : Option ℤ) (maxDownloadSize : ℤ) : Stream :=
  match content with
  | .error e => .raises e
  | .ok ⟨[], ends⟩ => ⟨[], ends⟩
  | .ok ⟨firstChunk :: chunks, ends⟩ =>
    let rest := yieldWithin (effectiveMaxSize maxSize maxDownloadSize) firstChunk.length chunks ends
    if 0 < firstChunk.length then ⟨firstChunk :: rest.chunks, rest.ends⟩ else rest

def getFileBytes (content : Except PyError Stream) (maxSize : Option ℤ) (maxDownloadSize : ℤ) :
    Except PyError Bytes := (getFileStream content maxSize maxDownloadSize).join

end Download

end IpfsLite.Files
