import IpfsLite.CarExport
import IpfsLite.Lib.Runs

/-!
`export_car` await by await, over the files of the directory. The content of the temporary file is
what it holds once closed; what a write that raises leaves in it is not followed.
-/

namespace IpfsLite.Car

open Worklist Runs

abbrev FileSystem := String → Option Bytes

inductive Stop
  | exception (e : PyError)
  | cancelled

inductive Await
  | proceeds
  | raises (e : PyError)
  | cancelled

inductive ExportPhase
  | starting
  | opening (root : Bytes)
  | writing (pieces : List Bytes) (block : Option (Bytes × Bytes)) (w : Worklist Bytes)
  | getting (cid : Bytes) (w : Worklist Bytes)
  | exchanging (cid : Bytes) (w : Worklist Bytes)
  | closing (inflight : Option Stop)
  | replacing
  | ended (result : Except Stop Unit)

structure ExportState where
  fs : FileSystem
  phase : ExportPhase

section Steps

variable (lib : CarLib) (getBlock exchange : Bytes → Except PyError (Option Bytes))
  (cidStr output temp : String)

def headerPieces (root : Bytes) : List Bytes :=
  let headerBytes := lib.cborDumps (carHeader root)
  [lib.varintEncode headerBytes.length, headerBytes]

def sectionPieces (block : Bytes × Bytes) : List Bytes :=
  [lib.varintEncode (block.1.length + block.2.length), block.1, block.2]

def nextPhase (w : Worklist Bytes) : ExportPhase :=
  match w.pop with
  | none => .closing none
  | some (cid, u) => .getting cid u

def afterBlock (block : Option (Bytes × Bytes)) (w : Worklist Bytes) : ExportPhase :=
  match block with
  | none => nextPhase w
  | some (cid, data) =>
    match exportLinks lib cid data with
    | .ok cs => nextPhase (w.push cs)
    | .error e => .closing (some (.exception e))

namespace ExportState

def goTo (s : ExportState) (phase : ExportPhase) : ExportState := { s with phase }

def inflight (s : ExportState) (stop : Stop) : ExportState := s.goTo (.closing (some stop))

/-- After the file is closed. `except Exception` removes it, but does not catch `Cancelled`. -/
def leave (s : ExportState) : Option Stop → ExportState
  | none => s.goTo .replacing
  | some (.exception e) => ⟨Function.update s.fs temp none, .ended (.error (.exception e))⟩
  | some .cancelled => s.goTo (.ended (.error .cancelled))

def write (s : ExportState) (piece : Bytes) : ExportState :=
  { s with fs := Function.update s.fs temp (some ((s.fs temp).getD [] ++ piece)) }

/-- `mkstemp` returns the name of a file that was not there. -/
def start (s : ExportState) (a : Await) : Option ExportState :=
  match lib.parseCid cidStr, a with
  | .error e, .proceeds => some (s.goTo (.ended (.error (.exception e))))
  | .ok rootCid, .proceeds =>
    if s.fs temp = none then
      some ⟨Function.update s.fs temp (some []), .opening (lib.cidToBytes rootCid)⟩
    else none
  | .ok _, .raises e => some (s.goTo (.ended (.error (.exception e))))
  | _, _ => none

def opened (s : ExportState) (root : Bytes) : Await → ExportState
  | .proceeds => s.goTo (.writing (headerPieces lib root) none (.start root))
  | .raises e => s.leave temp (some (.exception e))
  | .cancelled => s.leave temp (some .cancelled)

def wrote (s : ExportState) (pieces : List Bytes) (block : Option (Bytes × Bytes))
    (w : Worklist Bytes) : Await → ExportState
  | .proceeds =>
    match pieces with
    | [] => s.goTo (afterBlock lib block w)
    | [piece] => (s.write temp piece).goTo (afterBlock lib block w)
    | piece :: pieces => (s.write temp piece).goTo (.writing pieces block w)
  | .raises e => s.inflight (.exception e)
  | .cancelled => s.inflight .cancelled

def got (s : ExportState) (cid : Bytes) (w : Worklist Bytes) : Await → ExportState
  | .proceeds =>
    match getBlock cid with
    | .ok (some data) => s.goTo (.writing (sectionPieces lib (cid, data)) (some (cid, data)) w)
    | .ok none => s.goTo (.exchanging cid w)
    | .error e => s.inflight (.exception e)
  | .raises e => s.inflight (.exception e)
  | .cancelled => s.inflight .cancelled

def exchanged (s : ExportState) (cid : Bytes) (w : Worklist Bytes) : Await → ExportState
  | .proceeds =>
    match exchange cid with
    | .ok (some data) => s.goTo (.writing (sectionPieces lib (cid, data)) (some (cid, data)) w)
    | .ok none => s.inflight (.exception (missingBlock lib.toDagLib cid))
    | .error e => s.inflight (.exception e)
  | .raises e => s.inflight (.exception e)
  | .cancelled => s.inflight .cancelled

/-- `aclose` closes the file whatever is cancelled, and raises `Cancelled` after that; an exception
of its own takes the place of the one in flight. -/
def closed (s : ExportState) (inflight : Option Stop) : Await → ExportState
  | .proceeds => s.leave temp inflight
  | .raises e => s.leave temp (some (.exception e))
  | .cancelled => s.leave temp (some .cancelled)

def replaced (s : ExportState) : Await → Option ExportState
  | .proceeds =>
    some ⟨Function.update (Function.update s.fs temp none) output (s.fs temp), .ended (.ok ())⟩
  | .raises e => some (s.leave temp (some (.exception e)))
  | .cancelled => none

def step (s : ExportState) (a : Await) : Option ExportState :=
  match s.phase with
  | .starting => s.start lib cidStr temp a
  | .opening root => some (s.opened lib temp root a)
  | .writing pieces block w => some (s.wrote lib temp pieces block w a)
  | .getting cid w => some (s.got lib getBlock cid w a)
  | .exchanging cid w => some (s.exchanged lib exchange cid w a)
  | .closing inflight => some (s.closed temp inflight a)
  | .replacing => s.replaced output temp a
  | .ended _ => none

end ExportState

structure Atomic (fs : FileSystem) (t : ExportState) : Prop where
  returned : t.phase = .ended (.ok ()) → ∃ fuel content,
    exportCar lib getBlock exchange fuel cidStr = (content, .finished) ∧
      t.fs = Function.update fs output (some content)
  stopped : ∀ stop, t.phase = .ended (.error stop) → t.fs = fs

end Steps

/-- The await lets `Cancelled` out of the export: when the temporary file is opened or closed, or when
it is closed without an exception after a cancellation in the body. -/
def endsCancelled (s : ExportState) (a : Await) : Bool :=
  match s.phase, a with
  | .opening _, .cancelled | .closing _, .cancelled | .closing (some .cancelled), .proceeds => true
  | _, _ => false

variable {lib : CarLib} {getBlock exchange : Bytes → Except PyError (Option Bytes)}
  {cidStr output temp : String} {fs : FileSystem} {s t : ExportState} {a : Await} {root : Bytes}

inductive Written (lib : CarLib) (getBlock exchange : Bytes → Except PyError (Option Bytes))
    (root : Bytes) : Worklist Bytes → Bytes → Prop
  | header : Written lib getBlock exchange root (.start root) (headerFrame lib root)
  | block {w u : Worklist Bytes} {content cid data : Bytes} {cs : List Bytes}
      (h : Written lib getBlock exchange root w content) (hpop : w.pop = some (cid, u))
      (hfetch : fetch lib getBlock exchange cid = .ok data)
      (hlinks : exportLinks lib cid data = .ok cs) :
      Written lib getBlock exchange root (u.push cs) (content ++ sectionFrame lib (cid, data))

def blocksOf (lib : CarLib) (getBlock exchange : Bytes → Except PyError (Option Bytes))
    (cids : List Bytes) : List (Bytes × Bytes) :=
  cids.filterMap fun cid => (fetch lib getBlock exchange cid).toOption.map (cid, ·)

theorem blocksOf_append (a b : List Bytes) : blocksOf lib getBlock exchange (a ++ b) =
    blocksOf lib getBlock exchange a ++ blocksOf lib getBlock exchange b := List.filterMap_append

theorem Written.run {w : Worklist Bytes} {content : Bytes}
    (h : Written lib getBlock exchange root w content) : ∃ n cids,
      content = headerFrame lib root ++
        (blocksOf lib getBlock exchange cids).flatMap (sectionFrame lib) ∧
      ∀ k, Worklist.run (exportVisit lib getBlock exchange) (n + k) (.start root) =
        (cids ++ (Worklist.run (exportVisit lib getBlock exchange) k w).1,
          (Worklist.run (exportVisit lib getBlock exchange) k w).2) := by
  induction h with
  | header => exact ⟨0, [], by simp [blocksOf], fun k => by simp⟩
  | @block w u content cid data cs _ hpop hfetch hlinks ih =>
    obtain ⟨n, cids, hcontent, hrun⟩ := ih
    have hvisit : exportVisit lib getBlock exchange cid = .ok cs :=
      bind_ok.mpr ⟨data, hfetch, hlinks⟩
    refine ⟨n + 1, cids ++ [cid], ?_, fun k => ?_⟩
    · have hone : blocksOf lib getBlock exchange [cid] = [(cid, data)] := by
        simp [blocksOf, hfetch, Except.toOption]
      rw [hcontent, blocksOf_append, hone, List.flatMap_append, List.append_assoc]
      simp
    · rw [Nat.add_assoc, Nat.add_comm 1 k, hrun (k + 1)]
      simp only [Worklist.run, hpop, hvisit, List.append_assoc, List.singleton_append]

theorem Written.exportCar {w : Worklist Bytes} {content : Bytes} {rootCid : lib.Cid}
    (hroot : lib.parseCid cidStr = .ok rootCid)
    (h : Written lib getBlock exchange (lib.cidToBytes rootCid) w content) (hpop : w.pop = none) :
    ∃ fuel, Car.exportCar lib getBlock exchange fuel cidStr = (content, .finished) := by
  obtain ⟨n, cids, rfl, hrun⟩ := h.run
  have hlast : Worklist.run (exportVisit lib getBlock exchange) 1 w = ([], .finished) := by
    simp only [Worklist.run, hpop]
  have hall := hrun 1
  rw [hlast, List.append_nil] at hall
  refine ⟨n + 1, ?_⟩
  simp only [Car.exportCar, hroot, exportBlocks, exportWalk, hall]
  rfl

def Holds (fs : FileSystem) (temp : String) (s : ExportState) (content : Bytes) : Prop :=
  fs temp = none ∧ s.fs = Function.update fs temp (some content)

theorem Holds.removed {content : Bytes} (h : Holds fs temp s content) :
    Function.update s.fs temp none = fs := by
  rw [h.2, Function.update_idem]
  exact Function.update_eq_self_iff.mpr h.1.symm

theorem Holds.write {content : Bytes} (h : Holds fs temp s content) (piece : Bytes) :
    Holds fs temp (s.write temp piece) (content ++ piece) := by
  refine ⟨h.1, ?_⟩
  simp [ExportState.write, h.2]

theorem Holds.replaced {content : Bytes} (h : Holds fs temp s content) :
    Function.update (Function.update s.fs temp none) output (s.fs temp) =
      Function.update fs output (some content) := by
  rw [h.removed, h.2, Function.update_self]

def Whole (lib : CarLib) (getBlock exchange : Bytes → Except PyError (Option Bytes)) (cidStr : String)
    (content : Bytes) : Prop :=
  ∃ fuel, exportCar lib getBlock exchange fuel cidStr = (content, .finished)

def AtLoop (lib : CarLib) (getBlock exchange : Bytes → Except PyError (Option Bytes))
    (cidStr temp : String) (fs : FileSystem) (s : ExportState) (w : Worklist Bytes) : Prop :=
  ∃ rootCid content, lib.parseCid cidStr = .ok rootCid ∧
    Written lib getBlock exchange (lib.cidToBytes rootCid) w content ∧ Holds fs temp s content

def Completes (lib : CarLib) (getBlock exchange : Bytes → Except PyError (Option Bytes))
    (cidStr : String) (block : Option (Bytes × Bytes)) (u : Worklist Bytes) (content : Bytes) : Prop :=
  match block with
  | none => ∃ rootCid, lib.parseCid cidStr = .ok rootCid ∧ u = .start (lib.cidToBytes rootCid) ∧
      content = headerFrame lib (lib.cidToBytes rootCid)
  | some block => ∃ rootCid w before, lib.parseCid cidStr = .ok rootCid ∧
      Written lib getBlock exchange (lib.cidToBytes rootCid) w before ∧
      w.pop = some (block.1, u) ∧ fetch lib getBlock exchange block.1 = .ok block.2 ∧
      content = before ++ sectionFrame lib block

def Inv (lib : CarLib) (getBlock exchange : Bytes → Except PyError (Option Bytes))
    (cidStr output temp : String) (fs : FileSystem) (s : ExportState) : Prop :=
  match s.phase with
  | .starting | .ended (.error (.exception _)) => s.fs = fs
  | .opening root => Holds fs temp s [] ∧ ∃ c, lib.parseCid cidStr = .ok c ∧ lib.cidToBytes c = root
  | .writing pieces block u => ∃ content, Holds fs temp s content ∧
      Completes lib getBlock exchange cidStr block u (content ++ pieces.flatten)
  | .getting cid u => ∃ w, AtLoop lib getBlock exchange cidStr temp fs s w ∧ w.pop = some (cid, u)
  | .exchanging cid u => ∃ w, AtLoop lib getBlock exchange cidStr temp fs s w ∧
      w.pop = some (cid, u) ∧ getBlock cid = .ok none
  | .closing none | .replacing => ∃ content, Whole lib getBlock exchange cidStr content ∧
      Holds fs temp s content
  | .closing (some _) | .ended (.error .cancelled) => ∃ content, Holds fs temp s content
  | .ended (.ok ()) => ∃ content, Whole lib getBlock exchange cidStr content ∧
      s.fs = Function.update fs output (some content)

theorem inv_nextPhase {w : Worklist Bytes} (h : AtLoop lib getBlock exchange cidStr temp fs s w) :
    Inv lib getBlock exchange cidStr output temp fs (s.goTo (nextPhase w)) := by
  unfold nextPhase
  cases hpop : w.pop with
  | none =>
    obtain ⟨rootCid, content, hroot, hwritten, hholds⟩ := h
    exact ⟨content, hwritten.exportCar hroot hpop, hholds⟩
  | some next => exact ⟨w, h, hpop⟩

theorem inv_afterBlock {block : Option (Bytes × Bytes)} {u : Worklist Bytes} {content : Bytes}
    (hc : Completes lib getBlock exchange cidStr block u content) (hh : Holds fs temp s content) :
    Inv lib getBlock exchange cidStr output temp fs (s.goTo (afterBlock lib block u)) := by
  cases block with
  | none =>
    obtain ⟨rootCid, hroot, rfl, rfl⟩ := hc
    exact inv_nextPhase ⟨rootCid, _, hroot, .header, hh⟩
  | some block =>
    obtain ⟨rootCid, w, before, hroot, hwritten, hpop, hfetch, rfl⟩ := hc
    unfold afterBlock
    cases hlinks : exportLinks lib block.1 block.2 with
    | error e =>
      simp only [hlinks]
      exact ⟨_, hh⟩
    | ok cs =>
      simp only [hlinks]
      exact inv_nextPhase ⟨rootCid, _, hroot, hwritten.block hpop hfetch hlinks, hh⟩

theorem inv_inflight {content : Bytes} (h : Holds fs temp s content) (stop : Stop) :
    Inv lib getBlock exchange cidStr output temp fs (s.inflight stop) := ⟨content, h⟩

theorem inv_leave {content : Bytes} (h : Holds fs temp s content) (stop : Stop) :
    Inv lib getBlock exchange cidStr output temp fs (s.leave temp (some stop)) := by
  cases stop with
  | exception e => exact h.removed
  | cancelled => exact ⟨content, h⟩

theorem inv_wrote {pieces : List Bytes} {block : Option (Bytes × Bytes)} {u : Worklist Bytes}
    {content : Bytes} (hh : Holds fs temp s content)
    (hc : Completes lib getBlock exchange cidStr block u (content ++ pieces.flatten)) (a : Await) :
    Inv lib getBlock exchange cidStr output temp fs (s.wrote lib temp pieces block u a) := by
  cases a with
  | raises e => exact inv_inflight hh _
  | cancelled => exact inv_inflight hh _
  | proceeds =>
    rcases pieces with _ | ⟨piece, _ | ⟨next, pieces⟩⟩
    · exact inv_afterBlock hc (by simpa using hh)
    · exact inv_afterBlock hc (by simpa using hh.write piece)
    · refine ⟨content ++ piece, hh.write piece, ?_⟩
      simpa [List.append_assoc] using hc

theorem inv_section {w u : Worklist Bytes} {cid data : Bytes}
    (h : AtLoop lib getBlock exchange cidStr temp fs s w) (hpop : w.pop = some (cid, u))
    (hfetch : fetch lib getBlock exchange cid = .ok data) : Inv lib getBlock exchange cidStr output
      temp fs (s.goTo (.writing (sectionPieces lib (cid, data)) (some (cid, data)) u)) := by
  obtain ⟨rootCid, content, hroot, hwritten, hh⟩ := h
  refine ⟨content, hh, rootCid, w, content, hroot, hwritten, hpop, hfetch, ?_⟩
  simp [sectionPieces, sectionFrame]

theorem inv_got {w u : Worklist Bytes} {cid : Bytes}
    (h : AtLoop lib getBlock exchange cidStr temp fs s w) (hpop : w.pop = some (cid, u)) (a : Await) :
    Inv lib getBlock exchange cidStr output temp fs (s.got lib getBlock cid u a) := by
  obtain ⟨rootCid, content, hroot, hwritten, hh⟩ := h
  cases a with
  | raises e => exact inv_inflight hh _
  | cancelled => exact inv_inflight hh _
  | proceeds =>
    unfold ExportState.got
    cases hget : getBlock cid with
    | error e =>
      exact inv_inflight hh _
    | ok found =>
      cases found with
      | none =>
        exact ⟨w, ⟨rootCid, content, hroot, hwritten, hh⟩, hpop, hget⟩
      | some data =>
        apply inv_section ⟨rootCid, content, hroot, hwritten, hh⟩ hpop
        simp [fetch, hget, bind, Except.bind]

theorem inv_exchanged {w u : Worklist Bytes} {cid : Bytes}
    (h : AtLoop lib getBlock exchange cidStr temp fs s w) (hpop : w.pop = some (cid, u))
    (hget : getBlock cid = .ok none) (a : Await) :
    Inv lib getBlock exchange cidStr output temp fs (s.exchanged lib exchange cid u a) := by
  obtain ⟨rootCid, content, hroot, hwritten, hh⟩ := h
  cases a with
  | raises e => exact inv_inflight hh _
  | cancelled => exact inv_inflight hh _
  | proceeds =>
    unfold ExportState.exchanged
    cases hex : exchange cid with
    | error e =>
      exact inv_inflight hh _
    | ok found =>
      cases found with
      | none =>
        exact inv_inflight hh _
      | some data =>
        apply inv_section ⟨rootCid, content, hroot, hwritten, hh⟩ hpop
        simp [fetch, hget, hex, bind, Except.bind]

theorem inv_start (hfs : s.fs = fs) (h : s.start lib cidStr temp a = some t) :
    Inv lib getBlock exchange cidStr output temp fs t := by
  unfold ExportState.start at h
  split at h
  · obtain rfl := Option.some.inj h
    exact hfs
  next rootCid hroot =>
    split_ifs at h with hnew
    obtain rfl := Option.some.inj h
    rw [hfs] at hnew
    exact ⟨⟨hnew, by rw [hfs]⟩, rootCid, hroot, rfl⟩
  · obtain rfl := Option.some.inj h
    exact hfs
  · contradiction

theorem inv_step (hs : Inv lib getBlock exchange cidStr output temp fs s)
    (h : s.step lib getBlock exchange cidStr output temp a = some t) :
    Inv lib getBlock exchange cidStr output temp fs t := by
  obtain ⟨files, phase⟩ := s
  cases phase with
  | starting => exact inv_start hs h
  | opening root =>
    obtain rfl := Option.some.inj h
    obtain ⟨hh, rootCid, hroot, rfl⟩ := hs
    cases a with
    | proceeds =>
      refine ⟨[], hh, rootCid, hroot, rfl, ?_⟩
      simp [headerPieces, headerFrame]
    | raises e => exact inv_leave hh (.exception e)
    | cancelled => exact inv_leave hh .cancelled
  | writing pieces block u =>
    obtain rfl := Option.some.inj h
    obtain ⟨content, hh, hc⟩ := hs
    exact inv_wrote hh hc a
  | getting cid u =>
    obtain rfl := Option.some.inj h
    obtain ⟨w, hloop, hpop⟩ := hs
    exact inv_got hloop hpop a
  | exchanging cid u =>
    obtain rfl := Option.some.inj h
    obtain ⟨w, hloop, hpop, hget⟩ := hs
    exact inv_exchanged hloop hpop hget a
  | closing inflight =>
    obtain rfl := Option.some.inj h
    cases inflight with
    | none =>
      obtain ⟨content, hwhole, hh⟩ := hs
      cases a with
      | proceeds => exact ⟨content, hwhole, hh⟩
      | raises e => exact inv_leave hh (.exception e)
      | cancelled => exact inv_leave hh .cancelled
    | some stop =>
      obtain ⟨content, hh⟩ := hs
      cases a with
      | proceeds => exact inv_leave hh stop
      | raises e => exact inv_leave hh (.exception e)
      | cancelled => exact inv_leave hh .cancelled
  | replacing =>
    obtain ⟨content, hwhole, hh⟩ := hs
    cases a with
    | proceeds =>
      obtain rfl := Option.some.inj h
      exact ⟨content, hwhole, hh.replaced⟩
    | raises e =>
      obtain rfl := Option.some.inj h
      exact inv_leave hh (.exception e)
    | cancelled => contradiction
  | ended result => contradiction

def IsCancelled (s : ExportState) : Prop := s.phase = .ended (.error .cancelled)

theorem atomic_iff (h : Inv lib getBlock exchange cidStr output temp fs t) :
    Atomic lib getBlock exchange cidStr output fs t ↔ ¬IsCancelled t := by
  obtain ⟨files, phase⟩ := t
  constructor
  · rintro hatomic rfl
    obtain ⟨content, hnew, hfs⟩ := h
    have hsame := hatomic.stopped .cancelled rfl
    dsimp only at hfs hsame
    rw [hsame] at hfs
    have := congrFun hfs temp
    rw [Function.update_self, hnew] at this
    contradiction
  · intro hc
    refine ⟨?_, ?_⟩
    · rintro rfl
      obtain ⟨content, ⟨fuel, hwhole⟩, hfs⟩ := h
      exact ⟨fuel, content, hwhole, hfs⟩
    · rintro stop rfl
      cases stop with
      | exception e => exact h
      | cancelled => exact absurd rfl hc

theorem nextPhase_not_cancelled (w : Worklist Bytes) : nextPhase w ≠ .ended (.error .cancelled) := by
  unfold nextPhase
  split <;> exact fun h => nomatch h

theorem afterBlock_not_cancelled (block : Option (Bytes × Bytes)) (w : Worklist Bytes) :
    afterBlock lib block w ≠ .ended (.error .cancelled) := by
  unfold afterBlock
  split
  · exact nextPhase_not_cancelled w
  · split
    · exact nextPhase_not_cancelled _
    · exact fun h => nomatch h

theorem start_not_cancelled (h : s.start lib cidStr temp a = some t) :
    ¬IsCancelled t := by
  unfold ExportState.start at h
  split at h
  · obtain rfl := Option.some.inj h
    exact fun hc => nomatch hc
  · split_ifs at h
    obtain rfl := Option.some.inj h
    exact fun hc => nomatch hc
  · obtain rfl := Option.some.inj h
    exact fun hc => nomatch hc
  · contradiction

theorem wrote_not_cancelled (pieces : List Bytes) (block : Option (Bytes × Bytes))
    (w : Worklist Bytes) (a : Await) : ¬IsCancelled (s.wrote lib temp pieces block w a) := by
  cases a with
  | proceeds =>
    rcases pieces with _ | ⟨piece, _ | ⟨next, pieces⟩⟩
    · exact afterBlock_not_cancelled block w
    · exact afterBlock_not_cancelled block w
    · exact fun hc => nomatch hc
  | raises e => exact fun hc => nomatch hc
  | cancelled => exact fun hc => nomatch hc

theorem got_not_cancelled (cid : Bytes) (w : Worklist Bytes) (a : Await) :
    ¬IsCancelled (s.got lib getBlock cid w a) := by
  unfold ExportState.got
  split
  · split <;> exact fun hc => nomatch hc
  · exact fun hc => nomatch hc
  · exact fun hc => nomatch hc

theorem exchanged_not_cancelled (cid : Bytes) (w : Worklist Bytes) (a : Await) :
    ¬IsCancelled (s.exchanged lib exchange cid w a) := by
  unfold ExportState.exchanged
  split
  · split <;> exact fun hc => nomatch hc
  · exact fun hc => nomatch hc
  · exact fun hc => nomatch hc

theorem leave_isCancelled (inflight : Option Stop) :
    IsCancelled (s.leave temp inflight) ↔ inflight = some .cancelled := by
  unfold ExportState.leave
  split <;> simp [IsCancelled, ExportState.goTo]

theorem step_isCancelled (h : s.step lib getBlock exchange cidStr output temp a = some t) :
    IsCancelled t ↔ endsCancelled s a = true := by
  obtain ⟨files, phase⟩ := s
  cases phase with
  | starting => exact iff_of_false (start_not_cancelled h) Bool.false_ne_true
  | opening root =>
    obtain rfl := Option.some.inj h
    cases a with
    | proceeds => exact iff_of_false (fun hc => nomatch hc) Bool.false_ne_true
    | raises e => exact (leave_isCancelled _).trans (by simp [endsCancelled])
    | cancelled => exact (leave_isCancelled _).trans (by simp [endsCancelled])
  | writing pieces block u =>
    obtain rfl := Option.some.inj h
    exact iff_of_false (wrote_not_cancelled pieces block u a) Bool.false_ne_true
  | getting cid u =>
    obtain rfl := Option.some.inj h
    exact iff_of_false (got_not_cancelled cid u a) Bool.false_ne_true
  | exchanging cid u =>
    obtain rfl := Option.some.inj h
    exact iff_of_false (exchanged_not_cancelled cid u a) Bool.false_ne_true
  | closing inflight =>
    obtain rfl := Option.some.inj h
    cases a with
    | proceeds =>
      refine (leave_isCancelled inflight).trans ?_
      rcases inflight with _ | _ | _ <;> simp [endsCancelled]
    | raises e =>
      refine (leave_isCancelled _).trans ?_
      rcases inflight with _ | _ | _ <;> simp [endsCancelled]
    | cancelled =>
      refine (leave_isCancelled _).trans ?_
      rcases inflight with _ | _ | _ <;> simp [endsCancelled]
  | replacing =>
    cases a with
    | proceeds =>
      obtain rfl := Option.some.inj h
      exact iff_of_false (fun hc => nomatch hc) Bool.false_ne_true
    | raises e =>
      obtain rfl := Option.some.inj h
      exact (leave_isCancelled _).trans (by simp [endsCancelled])
    | cancelled => contradiction
  | ended result => contradiction

def Exporting (lib : CarLib) (getBlock exchange : Bytes → Except PyError (Option Bytes))
    (cidStr output temp : String) (s : ExportState) (a : Await) (t : ExportState) : Prop :=
  s.step lib getBlock exchange cidStr output temp a = some t

theorem exportCar_atomic_iff (lib : CarLib)
    (getBlock exchange : Bytes → Except PyError (Option Bytes)) (cidStr output temp : String)
    (fs : FileSystem) (awaits : List Await) (t : ExportState)
    (h : Run (Exporting lib getBlock exchange cidStr output temp) ⟨fs, .starting⟩ awaits t) :
    Atomic lib getBlock exchange cidStr output fs t ↔
      Run (fun s a u => Exporting lib getBlock exchange cidStr output temp s a u ∧ ¬endsCancelled s a)
        ⟨fs, .starting⟩ awaits t := by
  have hinv : Inv lib getBlock exchange cidStr output temp fs t :=
    h.invariant (fun s a u hs he => inv_step hs he) rfl
  rw [atomic_iff hinv]
  constructor
  · clear hinv
    induction h with
    | refl => exact fun _ => .refl
    | @tail as u v a _ e ih =>
      intro hc
      have hu : ¬IsCancelled u := by
        rintro hu
        rw [Exporting, ExportState.step, hu] at e
        contradiction
      exact (ih hu).tail ⟨e, fun hends => hc ((step_isCancelled e).mpr hends)⟩
  · intro hrun
    apply hrun.invariant (P := fun s => ¬IsCancelled s)
    · rintro u a v - ⟨e, hends⟩ hv
      exact hends ((step_isCancelled e).mp hv)
    · exact fun hs => nomatch hs

def rawStore : Store := .ofList [(KnownCid.rawA.bytes, [97])]

def rawBlock (cid : Bytes) : Except PyError (Option Bytes) := .ok (rawStore.get? cid)

def noExchange (_ : Bytes) : Except PyError (Option Bytes) := .ok none

def files : FileSystem := fun path => if path = "/srv/out.car" then some [1] else none

def exportStep (s : ExportState) (a : Await) : Option ExportState :=
  s.step sampleLib rawBlock noExchange KnownCid.rawA.str "/srv/out.car" "/srv/car_tmp_x" a

def hasReturned (s : ExportState) : Bool :=
  match s.phase with
  | .ended (.ok ()) => true
  | _ => false

theorem hasReturned_phase {s : ExportState} (h : hasReturned s = true) : s.phase = .ended (.ok ()) := by
  unfold hasReturned at h
  split at h
  · assumption
  · contradiction

theorem exportCar_atomic_returned : ∃ t, t.phase = .ended (.ok ()) ∧
    Atomic sampleLib rawBlock noExchange KnownCid.rawA.str "/srv/out.car" files t := by
  obtain ⟨t, run, ht⟩ := exists_run (fun s a => if endsCancelled s a then none else exportStep s a)
    ⟨files, .starting⟩ (List.replicate 10 .proceeds) hasReturned (by decide +kernel)
  have hrun : Run (fun s a u => Exporting sampleLib rawBlock noExchange KnownCid.rawA.str
      "/srv/out.car" "/srv/car_tmp_x" s a u ∧ ¬endsCancelled s a)
      ⟨files, .starting⟩ (List.replicate 10 .proceeds) t := by
    apply run.mono
    intro u a v e
    split_ifs at e with hends
    exact ⟨e, hends⟩
  exact ⟨t, hasReturned_phase ht,
    (exportCar_atomic_iff sampleLib rawBlock noExchange KnownCid.rawA.str "/srv/out.car"
      "/srv/car_tmp_x" files _ t (hrun.mono fun _ _ _ e => e.1)).mpr hrun⟩

def leavesFile (s : ExportState) : Bool :=
  match s.phase with
  | .ended (.error _) => (s.fs "/srv/car_tmp_x").isSome
  | _ => false

def cancelledRead : List Await := [.proceeds, .proceeds, .proceeds, .proceeds, .cancelled, .proceeds]

theorem exportCar_atomic_fails : ¬∀ fs awaits t,
    Run (Exporting sampleLib rawBlock noExchange KnownCid.rawA.str "/srv/out.car" "/srv/car_tmp_x")
      ⟨fs, .starting⟩ awaits t →
    Atomic sampleLib rawBlock noExchange KnownCid.rawA.str "/srv/out.car" fs t := by
  intro hall
  obtain ⟨t, run, ht⟩ := exists_run exportStep ⟨files, .starting⟩ cancelledRead leavesFile
    (by decide +kernel)
  unfold leavesFile at ht
  split at ht
  next stop hphase =>
    rw [(hall files cancelledRead t run).stopped stop hphase] at ht
    contradiction
  · contradiction

end IpfsLite.Car
