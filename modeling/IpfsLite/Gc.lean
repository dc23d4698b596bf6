import IpfsLite.DagUtils
import IpfsLite.PinStore

/-!
`ContentMixin.gc` with no other task running. Each read of a walk may raise: `reads pin cid` is
what `blockstore.get(cid)` raises during the walk of that pin, if anything.
-/

namespace IpfsLite

structure GCResult where
  reclaimedBlocks : ℕ
  retainedBlocks : ℕ
deriving DecidableEq

abbrev Reads := String → Bytes → Option PyError

namespace Gc

open Worklist

variable (lib : DagLib)

def display (cid : Bytes) : Except PyError String :=
  (lib.parseCidBytes cid).map lib.formatCidForDisplay

def pinRoot (cidStr : String) : Except PyError Bytes := (lib.parseCid cidStr).map lib.cidToBytes

def getBlock (store : Store) (reads : Reads) (pin : String) (cid : Bytes) :
    Except PyError (Option Bytes) :=
  match reads pin cid with
  | some e => .error e
  | none => .ok (store.get? cid)

/-- The marking loop takes the string of each CID it is given before the walk goes on. -/
def markVisit (store : Store) (reads : Reads) (pin : String × PinValue) (cid : Bytes) :
    Except PyError (List Bytes) :=
  (display lib cid).bind fun _ =>
    expand lib (getBlock store reads pin.1) (pin.2.isType "recursive") false cid

def markWalk (store : Store) (reads : Reads) (pin : String × PinValue) (root : Bytes) : List Bytes :=
  (run (markVisit lib store reads pin) (walkBound lib false store) (.start root)).1

def markPin (store : Store) (reads : Reads) (pin : String × PinValue) : List String :=
  match pinRoot lib pin.1 with
  | .error _ => []
  | .ok root => (markWalk lib store reads pin root).filterMap (fun c => (display lib c).toOption)

def reachableCids (store : Store) (pins : PinMap) (reads : Reads) : List String :=
  (pins.entries.flatMap (markPin lib store reads)).dedup

def deleteAll : List String → Store → Store × Except PyError Unit
  | [], store => (store, .ok ())
  | s :: ss, store =>
    match pinRoot lib s with
    | .error e => (store, .error e)
    | .ok c => deleteAll ss (store.erase c)

def gc (store : Store) (pins : PinMap) (reads : Reads) : Store × Except PyError GCResult :=
  match store.keys.mapM (display lib) with
  | .error e => (store, .error e)
  | .ok keys =>
    let allCids := keys.dedup
    let reachable := reachableCids lib store pins reads
    let toDelete := allCids.filter (· ∉ reachable)
    let r := deleteAll lib toDelete store
    (r.1, r.2.map fun _ => ⟨toDelete.length, reachable.length⟩)

end Gc

end IpfsLite
