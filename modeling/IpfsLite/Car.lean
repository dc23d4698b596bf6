import IpfsLite.DagUtils
import IpfsLite.Lib.Leb128

/-!
`car.py`. A file that is read is the list of the bytes that are left in it; `FileReads` says how
many of them a call of `read` returns.
-/

namespace IpfsLite

structure Multihash where
  code : ℕ
  length : ℕ
  digest : Bytes
deriving DecidableEq

structure CarLib extends DagLib, PyLib where
  varintEncode : ℕ → Bytes
  varintDecode : Bytes → Except PyError (ℕ × Bytes)
  cborDumps : PyValue → Bytes
  multihashDecode : Bytes → Except PyError Multihash
  multihashDigest : Bytes → ℕ → ℕ → Except PyError Bytes
  cidStr : Cid → String

/-- `sys.maxsize`: `read` raises on a larger argument. -/
def sysMaxsize : ℕ := 2 ^ 63 - 1

structure FileReads where
  size : (left : ℕ) → (asked : ℕ) → ℕ
  size_pos : ∀ left asked, 0 < left → 0 < asked → 0 < size left asked
  size_le : ∀ left asked, size left asked ≤ asked

def FileReads.whole : FileReads where
  size left asked := min left asked
  size_pos left asked hl ha := by omega
  size_le left asked := by omega

/-- What the operations of a blockstore raise: a `put` by how many came before it, the check of a
root and the reads of its walk by the position of the root. -/
structure StoreFaults where
  put : ℕ → Option PyError
  has : ℕ → Option PyError
  get : ℕ → Bytes → Option PyError

def StoreFaults.none : StoreFaults := ⟨fun _ => .none, fun _ => .none, fun _ _ => .none⟩

namespace Car

section Reading

variable (f : FileReads)

def read (asked : ℕ) (rest : Bytes) : Except PyError (Bytes × Bytes) :=
  if sysMaxsize < asked then .error ⟨.overflowError, "cannot fit 'int' into an index-sized integer"⟩
  else .ok (rest.take (f.size rest.length asked), rest.drop (f.size rest.length asked))

/-- The loop of `_read_exactly`. Every round adds a byte, so `n` rounds are enough. -/
def readMore : ℕ → ℕ → Bytes → Bytes → Except PyError (Bytes × Bytes)
  | 0, _, data, rest => .ok (data, rest)
  | k + 1, n, data, rest =>
    if data.length < n then
      match read f (n - data.length) rest with
      | .error e => .error e
      | .ok (chunk, rest) =>
        if chunk = [] then .error ⟨.eofError, "Unexpected EOF"⟩
        else readMore k n (data ++ chunk) rest
    else .ok (data, rest)

def readExactly (n : ℕ) (rest : Bytes) : Except PyError (Bytes × Bytes) := readMore f n n [] rest

/-- `_read_varint` once `shift` bits are in `result`. Its `read(1)` returns the next byte, if any. -/
def readVarintFrom (shift result : ℕ) : Bytes → Except PyError (ℕ × Bytes)
  | [] =>
    if shift = 0 then .error ⟨.typeError, "EOF"⟩
    else .error ⟨.eofError, "Unexpected EOF reading varint"⟩
  | chunk :: rest =>
    let val := chunk.toNat
    let result := result ||| ((val &&& 0x7F) <<< shift)
    if val &&& 0x80 = 0 then .ok (result, rest) else readVarintFrom (shift + 7) result rest

def readVarint (rest : Bytes) : Except PyError (ℕ × Bytes) := readVarintFrom 0 0 rest

end Reading

variable (lib : CarLib)

def getCidLen (data : Bytes) : Except PyError ℕ :=
  if data.length ≥ 34 ∧ data[0]? = some 0x12 ∧ data[1]? = some 0x20 then .ok 34
  else do
    let (_version, stream) ← lib.varintDecode data
    let (_codec, stream) ← lib.varintDecode stream
    let (_mhCode, stream) ← lib.varintDecode stream
    let (mhLen, stream) ← lib.varintDecode stream
    if sysMaxsize < mhLen then
      .error ⟨.overflowError, "cannot fit 'int' into an index-sized integer"⟩
    else .ok (data.length - (stream.drop mhLen).length)

section Export

variable (getBlock exchange : Bytes → Except PyError (Option Bytes))

def carHeader (root : Bytes) : PyValue :=
  .dict [(.str "version", .int 1), (.str "roots", .list [.cborTag 42 (.bytes (0 :: root))])]

def headerFrame (root : Bytes) : Bytes :=
  let headerBytes := lib.cborDumps (carHeader root)
  lib.varintEncode headerBytes.length ++ headerBytes

def sectionFrame (block : Bytes × Bytes) : Bytes :=
  lib.varintEncode (block.1.length + block.2.length) ++ block.1 ++ block.2

def fetch (cid : Bytes) : Except PyError Bytes := do
  match ← getBlock cid with
  | some data => .ok data
  | none =>
    match ← exchange cid with
    | some data => .ok data
    | none => .error (missingBlock lib.toDagLib cid)

def exportLinks (cid data : Bytes) : Except PyError (List Bytes) := do
  let codec ← lib.parseCidCodec cid
  let normCodec ← lib.normaliseCodec codec
  if normCodec.str = "dag-pb" then
    match lib.decodeDagPb data with
    | .ok pb => .ok (pb.links.filterMap id)
    | .error _ => .ok []
  else if normCodec.str ∈ ["dag-json", "dag-cbor", "ipld", "dag-jose"] then
    match (decodeNode lib.toDagLib data codec).bind (extractCids lib.toDagLib false) with
    | .ok cids => .ok cids
    | .error _ => .ok []
  else .ok []

def exportVisit (cid : Bytes) : Except PyError (List Bytes) :=
  (fetch lib getBlock exchange cid).bind (exportLinks lib cid)

/-- The traversal of `export_car`: the CIDs whose sections it writes. The exchange may go on
answering, so the number of rounds is bounded by `fuel`. -/
def exportWalk (fuel : ℕ) (root : Bytes) : List Bytes × Worklist.Outcome PyError :=
  Worklist.run (exportVisit lib getBlock exchange) fuel (.start root)

def exportBlocks (fuel : ℕ) (root : Bytes) : List (Bytes × Bytes) :=
  (exportWalk lib getBlock exchange fuel root).1.filterMap fun cid =>
    (fetch lib getBlock exchange cid).toOption.map (cid, ·)

/-- The bytes written to the temporary file, and how the export ends. Only an export that finishes
replaces the output file. -/
def exportCar (fuel : ℕ) (cidStr : String) : Bytes × Worklist.Outcome PyError :=
  match lib.parseCid cidStr with
  | .error e => ([], .raised e)
  | .ok rootCid =>
    let root := lib.cidToBytes rootCid
    (headerFrame lib root ++ (exportBlocks lib getBlock exchange fuel root).flatMap (sectionFrame lib),
      (exportWalk lib getBlock exchange fuel root).2)

end Export

section Import

variable (f : FileReads) (faults : StoreFaults) (strict : Bool)

def verifyBlock (cidBytes data : Bytes) : Except PyError Unit := do
  let cid ← lib.parseCidBytes cidBytes
  let mh ← lib.multihashDecode (lib.multihash cid)
  match lib.multihashDigest data mh.code mh.length with
  | .error e => .error ⟨.valueError, s!"Failed to verify block {lib.cidStr cid}: {e.message}"⟩
  | .ok digest =>
    if digest = mh.digest then .ok ()
    else .error ⟨.valueError,
      s!"Failed to verify block {lib.cidStr cid}: Hash mismatch for block {lib.cidStr cid}"⟩

def readBlock (blockDataFull : Bytes) : Except PyError (Bytes × Bytes) := do
  let cidLen ← getCidLen lib blockDataFull
  let cidBytes := blockDataFull.take cidLen
  let data := blockDataFull.drop cidLen
  verifyBlock lib cidBytes data
  .ok (cidBytes, data)

/-- The read loop, with what it has put. Every round reads a byte, so the number of bytes left
bounds the rounds, and a round without bytes is the clean end of the file. -/
def readBlocks : ℕ → Bytes → List (Bytes × Bytes) → List (Bytes × Bytes) × Except PyError Unit
  | 0, _, puts => (puts, .ok ())
  | k + 1, rest, puts =>
    match readVarint rest with
    | .error e => if e.type = .typeError then (puts, .ok ()) else (puts, .error e)
    | .ok (blockLen, rest) =>
      match readExactly f blockLen rest with
      | .error e => (puts, .error e)
      | .ok (blockDataFull, rest) =>
        if blockDataFull = [] then (puts, .ok ())
        else
          match readBlock lib blockDataFull with
          | .error e => (puts, .error e)
          | .ok block =>
            match faults.put puts.length with
            | some e => (puts, .error e)
            | none => readBlocks k rest (puts ++ [block])

def rootStr : PyValue → Except PyError (List String)
  | .cborTag tag value =>
    if tag = 42 then
      (value.dropFirst.bind (parseCidValue lib.toDagLib)).map fun cid => [lib.formatCidForDisplay cid]
    else .ok []
  | _ => .ok []

def rootStrs : List PyValue → Except PyError (List String)
  | [] => .ok []
  | root :: rest => do
    let strs ← rootStr lib root
    let more ← rootStrs rest
    .ok (strs ++ more)

def isVersionOne (version : Option PyValue) : Bool := (version.getD .none).eqInt 1

def headerRoots (header : PyValue) : Except PyError (List String) := do
  let version ← header.get lib.toPyLib "version"
  if isVersionOne version then
    let roots ← header.get lib.toPyLib "roots"
    let items ← (roots.getD (.list [])).iter lib.toPyLib
    rootStrs lib items
  else .error ⟨.carParseError, s!"Unsupported CAR version: {lib.str (version.getD .none)}"⟩

def readHeader (headerLen : ℕ) (rest : Bytes) : Except PyError (List String × Bytes) := do
  let (headerBytes, rest) ← readExactly f headerLen rest
  let header ← lib.cborLoads headerBytes
  let roots ← headerRoots lib header
  .ok (roots, rest)

def putAll (store : Store) (puts : List (Bytes × Bytes)) : Store :=
  puts.foldl (fun s block => s.set block.1 block.2) store

def hasBlock (store : Store) (i : ℕ) (root : String) : Except PyError Bool := do
  let cid ← lib.parseCid root
  match faults.has i with
  | some e => .error e
  | none => .ok (store.get? (lib.cidToBytes cid)).isSome

def getBlock (store : Store) (i : ℕ) (cid : Bytes) : Except PyError (Option Bytes) :=
  match faults.get i cid with
  | some e => .error e
  | none => .ok (store.get? cid)

def walkRoot (store : Store) (i : ℕ) (root : String) : Except PyError Unit := do
  let cid ← lib.parseCid root
  match (walkDag lib.toDagLib store (getBlock faults store i) true true (lib.cidToBytes cid)).2 with
  | .finished => .ok ()
  | .raised e => .error e
  | .starved => .error ⟨.runtimeError, "walk not finished"⟩

def checkRoot (store : Store) (i : ℕ) (root : String) : Except PyError Unit := do
  let present ← hasBlock lib faults store i root
  if present then
    if strict then
      match walkRoot lib faults store i root with
      | .ok () => .ok ()
      | .error e =>
        .error ⟨.carParseError, s!"CAR file is missing blocks for DAG root {root}: {e.message}"⟩
    else .ok ()
  else .error ⟨.carParseError, s!"CAR file is missing root block {root}"⟩

def checkRoots (store : Store) : ℕ → List String → Except PyError Unit
  | _, [] => .ok ()
  | i, root :: roots => do
    checkRoot lib faults strict store i root
    checkRoots store (i + 1) roots

def isCaught : ExcType → Bool
  | .cborError | .typeError | .indexError | .eofError | .attributeError => true
  | type => type.isValueError

def parseFailure (e : PyError) : PyError :=
  if isCaught e.type then ⟨.carParseError, s!"Failed to parse CAR file: {e.message}"⟩ else e

def importCar (store : Store) (bytes : Bytes) :
    List (Bytes × Bytes) × Except PyError (List String) :=
  match readVarint bytes with
  | .error e => if e.type = .typeError then ([], .ok []) else ([], .error e)
  | .ok (headerLen, rest) =>
    match readHeader lib f headerLen rest with
    | .error e => ([], .error (parseFailure e))
    | .ok (roots, rest) =>
      let (puts, ended) := readBlocks lib f faults rest.length rest []
      match ended with
      | .error e => (puts, .error (parseFailure e))
      | .ok () =>
        match checkRoots lib faults strict (putAll store puts) 0 roots with
        | .error e => (puts, .error (parseFailure e))
        | .ok () => (puts, .ok roots)

end Import

end Car

end IpfsLite
