import IpfsLite.Gc
import IpfsLite.RWLock

/-!
One peer on which a run of `gc` meets the operations that write blocks and calls of `add_pin`. A
step is what one task does between two awaits, and an awaited call of the block store takes effect
in the step of the task that awaits it. `gc` is the task `none` of the read-write lock.
-/

namespace IpfsLite

inductive Instr
  | enterRead
  | exitRead
  | put (cid data : Bytes) (bestEffort : Bool)
  | getOrGoOn (cid : Bytes)
  | delete (cid : Bytes)
  | ret

/-- The place in the lock code at which an instruction that uses the lock is over, for the actions it
may take there. -/
def Instr.completesAt : Instr → RWLock.Act → Option RWLock.Pc
  | .enterRead, .enterRead | .enterRead, .resume => some .reading
  | .exitRead, .leave | .exitRead, .resume => some .outside
  | _, _ => none

/-- A call of one of the operations, with what it is going to put: for `import_car` the sections of
the file, for `fetch_block` the block that the exchange sends. -/
inductive Op
  | addNode (cid data : Bytes)
  | putBlock (cid data : Bytes)
  | importCar (blocks : List (Bytes × Bytes))
  | fetchBlock (cid data : Bytes)
  | removeNode (cid : Bytes)

namespace Op

def program : Op → List Instr
  | .addNode cid data => [.enterRead, .put cid data false, .exitRead]
  | .putBlock cid data => [.put cid data false, .ret]
  | .importCar blocks => blocks.map (fun b => .put b.1 b.2 false) ++ [.ret]
  | .fetchBlock cid data => [.getOrGoOn cid, .put cid data true, .ret]
  | .removeNode cid => [.delete cid, .ret]

def takesLock : Op → Bool
  | .addNode .. => true
  | _ => false

end Op

inductive OpState
  | idle
  | running (op : Op) (rest : List Instr) (failed : Bool)
  | returned (op : Op)
  | raised (op : Op)

namespace OpState

def isRunning : OpState → Bool
  | .running .. => true
  | _ => false

def takesLock : OpState → Bool
  | .idle => false
  | .running op .. | .returned op | .raised op => op.takesLock

def proceed (op : Op) (rest : List Instr) (failed : Bool) : OpState :=
  if rest.isEmpty then if failed then .raised op else .returned op else .running op rest failed

end OpState

namespace Gc

open Worklist

def awaited {α : Type*} (fails : Option PyError) (result : α) : Except PyError α :=
  fails.elim (.ok result) .error

@[simp] theorem awaited_none {α : Type*} (result : α) : awaited none result = .ok result := rfl

/-- The marking loop while it waits for the block `current`, the last CID its walk has yielded. -/
structure Marking where
  allCids : List String
  copied : PinMap
  reachable : List String
  pinsLeft : List (String × PinValue)
  walk : Worklist Bytes
  current : Bytes

inductive Phase
  | idle
  | listing
  | copying (allCids : List String)
  | marking (m : Marking)
  | sweeping (toDelete : List String) (deleted retained : ℕ)
  | returned (result : GCResult)
  | raised (e : PyError)

namespace Phase

def holdsLock : Phase → Bool
  | .idle | .returned _ | .raised _ => false
  | _ => true

def toDelete : Phase → List String
  | .sweeping ss _ _ => ss
  | _ => []

def result? : Phase → Option GCResult
  | .returned r => some r
  | _ => none

theorem result?_isSome {p : Phase} (h : p.result?.isSome = true) : ∃ r, p = .returned r := by
  cases p with
  | returned r => exact ⟨r, rfl⟩
  | _ => contradiction

end Phase

variable (lib : DagLib)

/-- The walk yields its next CID: the string that is marked, and the CID to be read after that. A
walk that is not recursive ends with its root, and one whose CID cannot be displayed is given up. -/
def yieldNext (w : Worklist Bytes) (recursive : Bool) : Option String × Option (Bytes × Worklist Bytes) :=
  match w.pop with
  | none => (none, none)
  | some (c, u) =>
    match display lib c with
    | .error _ => (none, none)
    | .ok s => (some s, if recursive then some (c, u) else none)

def startSweep (allCids reachable : List String) : Phase :=
  .sweeping (allCids.filter (· ∉ reachable)) 0 reachable.dedup.length

def nextPin (allCids : List String) (copied : PinMap) : List (String × PinValue) → List String → Phase
  | [], reachable => startSweep allCids reachable
  | pin :: pins, reachable =>
    match pinRoot lib pin.1 with
    | .error _ => nextPin allCids copied pins reachable
    | .ok root =>
      match yieldNext lib (.start root) (pin.2.isType "recursive") with
      | (mark, none) => nextPin allCids copied pins (reachable ++ mark.toList)
      | (mark, some (c, u)) => .marking ⟨allCids, copied, reachable ++ mark.toList, pins, u, c⟩

def Marking.resume (m : Marking) (read : Except PyError (Option Bytes)) : Phase :=
  match read.bind (blockOrMissing lib false m.current) with
  | .error _ => nextPin lib m.allCids m.copied m.pinsLeft m.reachable
  | .ok cs =>
    match yieldNext lib (m.walk.push cs) true with
    | (mark, none) => nextPin lib m.allCids m.copied m.pinsLeft (m.reachable ++ mark.toList)
    | (mark, some (c, u)) =>
      .marking { m with reachable := m.reachable ++ mark.toList, walk := u, current := c }

end Gc

/-- The last three fields are history: which operations have been in progress during the run of
`gc`, what each operation has put, and what `remove_node` has deleted. -/
structure Sys (τ : Type*) where
  lock : RWLock.State (Option τ)
  store : Store
  world : World
  gc : Gc.Phase
  ops : τ → OpState
  overlaps : τ → Bool
  puts : τ → List Bytes
  removed : List Bytes

namespace Sys

open Gc Function

inductive Event (τ : Type*)
  | call (t : τ) (op : Op)
  | lock (t : τ) (a : RWLock.Act)
  | run (t : τ)
  | fail (t : τ)
  | gcLock (a : RWLock.Act)
  | gcRun (fails : Option PyError)
  | gcDelete (cidStr : String) (fails : Option PyError)
  | addPin (cidStr pinType : String) (io : PinStore.SaveIo)

variable {τ : Type*} [DecidableEq τ] (lib : DagLib)

def initial (store : Store) (world : World) : Sys τ :=
  ⟨.initial, store, world, .idle, fun _ => .idle, fun _ => false, fun _ => [], []⟩

def setOp (s : Sys τ) (t : τ) (o : OpState) : Sys τ := { s with ops := update s.ops t o }

def call (s : Sys τ) (t : τ) (op : Op) : Option (Sys τ) :=
  match s.ops t with
  | .idle => some { s.setOp t (.running op op.program false) with
      overlaps := update s.overlaps t s.gc.holdsLock }
  | _ => none

def lockStep (s : Sys τ) (t : τ) (a : RWLock.Act) : Option (Sys τ) :=
  match s.ops t with
  | .running op (i :: rest) failed =>
    match i.completesAt a with
    | none => none
    | some pc =>
      (RWLock.step s.lock (some t) a).map fun l =>
        if l.pc (some t) = pc then { s.setOp t (.proceed op rest failed) with lock := l }
        else { s with lock := l }
  | _ => none

def run (s : Sys τ) (t : τ) : Option (Sys τ) :=
  match s.ops t with
  | .running op (.put cid data _ :: rest) failed =>
    some { s.setOp t (.proceed op rest failed) with
      store := s.store.set cid data, puts := update s.puts t (cid :: s.puts t) }
  | .running op (.getOrGoOn cid :: rest) failed =>
    some (s.setOp t (.proceed op (if cid ∈ s.store.keys then [.ret] else rest) failed))
  | .running op (.delete cid :: rest) failed =>
    some { s.setOp t (.proceed op rest failed) with
      store := s.store.erase cid, removed := cid :: s.removed }
  | .running op (.ret :: _) _ => some (s.setOp t (.returned op))
  | _ => none

/-- The awaited call raises. The cached put of `fetch_block` is best effort, and inside the read
lock the exception passes through the exit of the lock. -/
def fail (s : Sys τ) (t : τ) : Option (Sys τ) :=
  match s.ops t with
  | .running op (.put _ _ bestEffort :: rest) failed =>
    if bestEffort then some (s.setOp t (.proceed op rest failed))
    else if op.takesLock then some (s.setOp t (.proceed op rest true))
    else some (s.setOp t (.raised op))
  | .running op (.getOrGoOn _ :: _) _ | .running op (.delete _ :: _) _ | .running op (.ret :: _) _ =>
    some (s.setOp t (.raised op))
  | _ => none

def gcLock (s : Sys τ) (a : RWLock.Act) : Option (Sys τ) :=
  match s.gc with
  | .idle =>
    if a = .enterWrite ∨ a = .resume then
      (RWLock.step s.lock none a).map fun l =>
        if l.pc none = .writing then
          { s with lock := l, gc := .listing, overlaps := fun t => (s.ops t).isRunning }
        else { s with lock := l }
    else none
  | _ => none

def gcLeave (s : Sys τ) (p : Phase) : Option (Sys τ) :=
  (RWLock.step s.lock none .leave).map fun l => { s with lock := l, gc := p }

def gcRun (s : Sys τ) (fails : Option PyError) : Option (Sys τ) :=
  match s.gc with
  | .listing =>
    match (awaited fails s.store.keys).bind fun keys => keys.mapM (display lib) with
    | .error e => s.gcLeave (.raised e)
    | .ok keys => some { s with gc := .copying keys.dedup }
  | .copying allCids =>
    some { s with gc := nextPin lib allCids s.world.store.pins s.world.store.pins.entries [] }
  | .marking m =>
    some { s with gc := m.resume lib (awaited fails (s.store.get? m.current)) }
  | .sweeping [] deleted retained => s.gcLeave (.returned ⟨deleted, retained⟩)
  | _ => none

/-- The loop over the set `to_delete` takes its elements in any order. -/
def gcDelete (s : Sys τ) (cidStr : String) (fails : Option PyError) : Option (Sys τ) :=
  match s.gc with
  | .sweeping toDelete deleted retained =>
    if cidStr ∈ toDelete then
      match (pinRoot lib cidStr).bind (awaited fails) with
      | .error e => s.gcLeave (.raised e)
      | .ok cid => some { s with
          store := s.store.erase cid
          gc := .sweeping (toDelete.erase cidStr) (deleted + 1) retained }
    else none
  | _ => none

def step (s : Sys τ) : Event τ → Option (Sys τ)
  | .call t op => s.call t op
  | .lock t a => s.lockStep t a
  | .run t => s.run t
  | .fail t => s.fail t
  | .gcLock a => s.gcLock a
  | .gcRun fails => s.gcRun lib fails
  | .gcDelete cidStr fails => s.gcDelete lib cidStr fails
  | .addPin cidStr pinType io =>
    some { s with world := (s.world.addPin lib.toCidLib io cidStr pinType).1 }

def Step (s : Sys τ) (e : Event τ) (s' : Sys τ) : Prop := s.step lib e = some s'

def rawDagLib : DagLib := .ofTable [.rawA, .rawB] [] [] []

def storeA : Store := Dict.empty.set KnownCid.rawA.bytes [97]

def noPins : World := ⟨⟨none, .empty⟩, fun _ => none⟩

end Sys

end IpfsLite
