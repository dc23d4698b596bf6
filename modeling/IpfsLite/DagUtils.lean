import IpfsLite.PyValue
import IpfsLite.Lib.Dict
import IpfsLite.Lib.Worklist

/-!
`dag_utils.py` and `decode_node`. The decoders it calls come from other packages and are
parameters. A link of a dag-pb node is its `cid` attribute if it has one.
-/

namespace IpfsLite

structure DagPb where
  links : List (Option Bytes)
  unixfs : PyValue

structure DagLib extends CidLib where
  decodeDagPb : Bytes → Except PyError DagPb
  jsonLoads : Bytes → Except PyError PyValue
  cborLoads : Bytes → Except PyError PyValue

def decodeTable {α : Type} (type : ExcType) (rows : List (Bytes × α)) (data : Bytes) : Except PyError α :=
  match rows.lookup data with
  | some v => .ok v
  | none => .error ⟨type, "cannot decode"⟩

def DagLib.ofTable (cids : List KnownCid) (pb : List (Bytes × DagPb))
    (json cbor : List (Bytes × PyValue)) : DagLib where
  toCidLib := .ofTable cids
  decodeDagPb := decodeTable .valueError pb
  jsonLoads := decodeTable .valueError json
  cborLoads := decodeTable .cborError cbor

abbrev Store := Dict Bytes Bytes

variable (lib : DagLib)

def decodeNode (data : Bytes) (codec : String) : Except PyError PyValue :=
  if codec = "dag-json" then lib.jsonLoads data
  else if codec = "dag-cbor" ∨ codec = "cbor" then lib.cborLoads data
  else if codec = "raw" then .ok (.bytes data)
  else if codec = "dag-pb" then
    (lib.decodeDagPb data).map fun pb =>
      .dict [(.str "Links", .list (pb.links.map fun _ => .object "Link")), (.str "Data", pb.unixfs)]
  else .error ⟨.valueError, s!"Unsupported codec for decode_node: {codec}"⟩

def parseCidValue : PyValue → Except PyError lib.Cid
  | .str (.text s) => lib.parseCid s
  | .str (.surrogates _) => .error ⟨.valueError, "Invalid CID string"⟩
  | .bytes b => lib.parseCidBytes b
  | _ => .error ⟨.typeError, "unsupported CID value"⟩

def linkCid (v : PyValue) : Except PyError Bytes := (parseCidValue lib v).map lib.cidToBytes

/-- An attempt to read one link: an exception is raised again only if `strict`. -/
def attempt (strict : Bool) (r : Except PyError Bytes) : Except PyError (List Bytes) :=
  match r with
  | .ok c => .ok [c]
  | .error e => if strict then .error e else .ok []

def slashLink (strict : Bool) : Option PyValue → Except PyError (List Bytes)
  | some (.str s) => attempt strict (linkCid lib (.str s))
  | some (.bytes b) => attempt strict (linkCid lib (.bytes b))
  | _ => .ok []

mutual

def extractCids (strict : Bool) : PyValue → Except PyError (List Bytes)
  | .dict items => do
    let link ← slashLink lib strict (PyValue.lookup "/" items)
    let rest ← extractValues strict items
    .ok (link ++ rest)
  | .list items => extractItems strict items
  | .cborTag tag value =>
    if tag = 42 then attempt strict (value.dropFirst.bind (linkCid lib)) else .ok []
  | _ => .ok []

def extractItems (strict : Bool) : List PyValue → Except PyError (List Bytes)
  | [] => .ok []
  | v :: vs => do
    let cids ← extractCids strict v
    let rest ← extractItems strict vs
    .ok (cids ++ rest)

def extractValues (strict : Bool) : List (PyValue × PyValue) → Except PyError (List Bytes)
  | [] => .ok []
  | (_, v) :: es => do
    let cids ← extractCids strict v
    let rest ← extractValues strict es
    .ok (cids ++ rest)

end

def linkCodecs : List String := ["dag-json", "dag-cbor", "dag-jose", "ipld"]

/-- The links `walk_dag` takes from a block it has read; outside `strict` a block that does not
decode has none. -/
def blockLinks (strict : Bool) (cid data : Bytes) : Except PyError (List Bytes) := do
  let codec ← lib.parseCidCodec cid
  let normCodec ← lib.normaliseCodec codec
  if normCodec.isDagPb then
    match lib.decodeDagPb data with
    | .ok pb => .ok (pb.links.filterMap id)
    | .error e => if strict then .error e else .ok []
  else if normCodec.str ∈ linkCodecs then
    match (decodeNode lib data codec).bind (extractCids lib strict) with
    | .ok cids => .ok cids
    | .error e => if strict then .error e else .ok []
  else .ok []

def missingBlock (cid : Bytes) : PyError :=
  match lib.parseCidBytes cid with
  | .error e => e
  | .ok c => ⟨.blockNotFoundError, s!"Missing block: {lib.formatCidForDisplay c}"⟩

def blockOrMissing (strict : Bool) (cid : Bytes) : Option Bytes → Except PyError (List Bytes)
  | none => if strict then .error (missingBlock lib cid) else .ok []
  | some data => blockLinks lib strict cid data

/-- What `walk_dag` does with a CID after yielding it: the CIDs it puts on the queue. -/
def expand (getBlock : Bytes → Except PyError (Option Bytes)) (recursive strict : Bool)
    (cid : Bytes) : Except PyError (List Bytes) :=
  if recursive then (getBlock cid).bind (blockOrMissing lib strict cid) else .ok []

def walkBound (strict : Bool) (store : Store) : ℕ :=
  2 + (store.entries.map (fun e => ((blockLinks lib strict e.1 e.2).toOption.getD []).length)).sum

def walkDag (store : Store) (getBlock : Bytes → Except PyError (Option Bytes))
    (recursive strict : Bool) (root : Bytes) : List Bytes × Worklist.Outcome PyError :=
  Worklist.run (expand lib getBlock recursive strict) (walkBound lib strict store) (.start root)

end IpfsLite
