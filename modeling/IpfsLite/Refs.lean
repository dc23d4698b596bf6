import IpfsLite.FileFetch

/-!
The route `/api/v0/refs` with `local_block` and `fetch_block`. A `Link` of `decode_dag_pb` has a CID, a
name and a size; `frames` is how many calls of `visit` the stack has room for.
-/

namespace IpfsLite.Refs

structure PbLink where
  cid : Bytes
  name : String
  size : ℕ

structure RefsLib extends DagLib where
  cidStr : Cid → String
  decodeLinks : Bytes → Except PyError (List PbLink)
  decodeDagPb_links : ∀ data, (decodeDagPb data).map DagPb.links =
    (decodeLinks data).map (List.map fun link => some link.cid)

inductive FetchError
  | tooSlow
  | other (e : PyError)

structure Network where
  getBlock : Bytes → Except FetchError (Option Bytes)
  caches : Bytes → Bool

structure HttpException where
  statusCode : ℕ
  detail : String
deriving DecidableEq

inductive Raised
  | http (e : HttpException)
  | other (e : PyError)

structure Ref where
  ref : String
  nameSize : Option (String × ℕ)

structure Walk where
  blockstore : Store
  seen : List String
  out : List Ref

variable (lib : RefsLib) (net : Network)

def fetchBlock (blockstore : Store) (cid : String) : Store × Except FetchError Bytes :=
  match lib.parseCid cid with
  | .error e => (blockstore, .error (.other e))
  | .ok c =>
    match blockstore.get? (lib.cidToBytes c) with
    | some data => (blockstore, .ok data)
    | none =>
      match net.getBlock (lib.cidToBytes c) with
      | .error e => (blockstore, .error e)
      | .ok none =>
        (blockstore, .error (.other ⟨.blockNotFoundError, s!"Block not found for CID: {cid}"⟩))
      | .ok (some data) =>
        if net.caches (lib.cidToBytes c) then (blockstore.set (lib.cidToBytes c) data, .ok data)
        else (blockstore, .ok data)

def httpException (cid : String) : FetchError → HttpException
  | .tooSlow => ⟨404, s!"Block not found: {cid}"⟩
  | .other e =>
    if "not found".toList <:+: e.message.toLower.toList then ⟨404, s!"Block not found: {cid}"⟩
    else ⟨500, e.message⟩

def localBlock (blockstore : Store) (cid : String) : Store × Except HttpException Bytes :=
  match fetchBlock lib net blockstore cid with
  | (blockstore, .ok data) => (blockstore, .ok data)
  | (blockstore, .error e) => (blockstore, .error (httpException cid e))

def childStr (raw : Bytes) : Option String := (lib.parseCidBytes raw).toOption.map lib.cidStr

def linkRef (link : PbLink) : Option Ref :=
  (childStr lib link.cid).map fun child => ⟨child, some (link.name, link.size)⟩

def linkChildren (links : List PbLink) : List Bytes :=
  (links.map PbLink.cid).filter fun raw => (childStr lib raw).isSome

def visitChildren (visit : Walk → String → Walk × Except Raised Unit) :
    Walk → List Bytes → Walk × Except Raised Unit
  | w, [] => (w, .ok ())
  | w, raw :: children =>
    match childStr lib raw with
    | none => visitChildren visit w children
    | some child =>
      if child = "" then visitChildren visit w children
      else
        match visit w child with
        | (w, .ok ()) => visitChildren visit w children
        | (w, .error e) => (w, .error e)

/-- The part of `visit` under `try`. -/
def visitLinks (visit : Walk → String → Walk × Except Raised Unit) (recursive : Bool) (w : Walk)
    (data : Bytes) : Walk × Except Raised Unit :=
  match lib.decodeLinks data with
  | .error e => (w, .error (.other e))
  | .ok links =>
    let w := { w with out := w.out ++ links.filterMap (linkRef lib) }
    if recursive then visitChildren lib visit w (linkChildren lib links) else (w, .ok ())

def addRef (out : List Ref) (raw : Bytes) : List Ref :=
  match childStr lib raw with
  | none => out
  | some child => if child ∈ out.map Ref.ref then out else out ++ [⟨child, none⟩]

/-- The undecoded block is what the links are looked for in. -/
def visitStructural (w : Walk) (data : Bytes) : Walk × Except Raised Unit :=
  match extractCids lib.toDagLib false (.bytes data) with
  | .error e => (w, .error (.other e))
  | .ok cids => ({ w with out := cids.foldl (addRef lib) w.out }, .ok ())

def visit (recursive : Bool) : ℕ → Walk → String → Walk × Except Raised Unit
  | 0, w, _ => (w, .error (.other Files.recursionError))
  | frames + 1, w, cid =>
    if cid ∈ w.seen then (w, .ok ())
    else
      match localBlock lib net w.blockstore cid with
      | (blockstore, .error e) => (⟨blockstore, cid :: w.seen, w.out⟩, .error (.http e))
      | (blockstore, .ok data) =>
        match visitLinks lib (visit recursive frames) recursive ⟨blockstore, cid :: w.seen, w.out⟩ data with
        | (w, .ok ()) => (w, .ok ())
        | (w, .error _) => visitStructural lib w data

def refsLocalObject (frames : ℕ) (blockstore : Store) (arg : String) (recursive : Bool) :
    Except Raised (List Ref) :=
  match localBlock lib net blockstore arg with
  | (_, .error e) => .error (.http e)
  | (blockstore, .ok _) =>
    match visit lib net recursive (frames + 1) ⟨blockstore, [], []⟩ arg with
    | (_, .error e) => .error e
    | (w, .ok ()) => .ok w.out

end IpfsLite.Refs
