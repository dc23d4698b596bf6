import IpfsLite.BlockApi
import IpfsLite.Lib.Linearizability

/-!
The block routes as one map from CIDs to blocks: whatever the overlap of the requests, each takes effect at
one moment between its arrival and its response.
-/

namespace IpfsLite.BlockApi

open Function Runs Linearizability
open MetricsBlockStore (Task)

abbrev Blocks := Bytes → Option Bytes

structure Enumerates (keys : List Bytes) (S : Blocks) : Prop where
  nodup : keys.Nodup
  mem_iff : ∀ c, c ∈ keys ↔ S c ≠ none

/-- What a request answers, and the blocks after it; `fails` says that calls of the block store may raise. -/
inductive Answers (lib : BlockLib) (fails : Prop) (S : Blocks) : Request → Response → Blocks → Prop
  | statInvalid {arg : String} {r : Response} (h : parseArg lib arg = .error r) : Answers lib fails S (.blockStat arg) r S
  | getInvalid {arg : String} {r : Response} (h : parseArg lib arg = .error r) : Answers lib fails S (.blockGet arg) r S
  | stat {arg : String} {cid data : Bytes} (h : parseArg lib arg = .ok cid) (hs : S cid = some data) :
      Answers lib fails S (.blockStat arg) ⟨200, .keySize arg data.length⟩ S
  | get {arg : String} {cid data : Bytes} (h : parseArg lib arg = .ok cid) (hs : S cid = some data) :
      Answers lib fails S (.blockGet arg) ⟨200, .octets data⟩ S
  | statMissing {arg : String} {cid : Bytes} (h : parseArg lib arg = .ok cid) (hs : S cid = none) :
      Answers lib fails S (.blockStat arg) ⟨404, .detail arg⟩ S
  | getMissing {arg : String} {cid : Bytes} (h : parseArg lib arg = .ok cid) (hs : S cid = none) :
      Answers lib fails S (.blockGet arg) ⟨404, .detail arg⟩ S
  | put {data : Bytes} : Answers lib fails S (.blockPut data)
      ⟨200, .keySize (lib.formatCidBytes (lib.computeCidV1 data)) data.length⟩
      (update S (lib.computeCidV1 data) (some data))
  | rmInvalid {arg : String} {e : PyError} (h : lib.parseCid arg = .error e) :
      Answers lib fails S (.blockRm arg) genericExceptionHandler S
  | rm {arg : String} {cid : lib.Cid} (h : lib.parseCid arg = .ok cid) :
      Answers lib fails S (.blockRm arg) ⟨200, .hashError arg ""⟩ (update S (lib.cidToBytes cid) none)
  | refsInvalid {keys : List Bytes} {e : PyError} (hk : Enumerates keys S) (h : allKeys lib keys = .error e) :
      Answers lib fails S .refsLocal genericExceptionHandler S
  | refs {keys : List Bytes} {refs : List String} (hk : Enumerates keys S) (h : allKeys lib keys = .ok refs) :
      Answers lib fails S .refsLocal ⟨200, .refs refs⟩ S
  | failed {req : Request} (h : fails) : Answers lib fails S req genericExceptionHandler S

def seen {κ : Type*} : Event κ → List (Linearizability.Event κ Request Response)
  | .request k req => [.call k req]
  | .respond k r => [.answer k r]
  | _ => []

def held (w : MetricsBlockStore.World) : Blocks := fun cid => w.store.get? cid

/-- The request waits there and has yet to take effect. -/
def NotYet (lib : BlockLib) : Request → Pc → Prop
  | .blockStat arg, .reading cid | .blockGet arg, .reading cid => parseArg lib arg = .ok cid
  | .blockPut data, .storing (.putChecks cid data') | .blockPut data, .storing (.putStores cid data' _) =>
    cid = lib.computeCidV1 data ∧ data' = data
  | .blockRm arg, .storing (.deleteChecks cid) | .blockRm arg, .storing (.deleteSizes cid)
  | .blockRm arg, .storing (.deleteErases cid _) => ∃ c, lib.parseCid arg = .ok c ∧ cid = lib.cidToBytes c
  | .refsLocal, .listing => True
  | _, _ => False

def Settled (lib : BlockLib) : Request → Pc → Response → Prop
  | .blockPut data, .storing (.putCounts _ _), r => r = afterStore lib (.blockPut data)
  | .blockRm arg, .storing (.deleteCounts _), r => r = afterStore lib (.blockRm arg)
  | _, .answering r', r => r' = r
  | _, _, _ => False

inductive Fits (lib : BlockLib) : ReqState → Status Request Response → Prop
  | idle : Fits lib .idle .fresh
  | notYet {req : Request} {pc : Pc} (h : NotYet lib req pc) : Fits lib (.active req pc) (.pending req)
  | settled {req : Request} {pc : Pc} {r : Response} (h : Settled lib req pc r) :
      Fits lib (.active req pc) (.done req r)
  | answered {req : Request} {r : Response} : Fits lib .answered (.over req r)

variable {κ : Type*} [DecidableEq κ]

structure Simulates (lib : BlockLib) (s : State κ) (a : Atomic κ Blocks Request Response) : Prop where
  blocks : a.state = held s.world
  fits : ∀ k, Fits lib (s.reqs k) (a.status k)

variable {lib : BlockLib} {config : Config} {fails : Prop} {s s' : State κ} {a : Atomic κ Blocks Request Response}
  {k : κ} {req : Request} {pc pc' : Pc} {w w' : MetricsBlockStore.World} {S : Blocks}

theorem enumerates_keys (w : MetricsBlockStore.World) : Enumerates w.store.keys (held w) := by
  refine ⟨w.store.nodup, fun c => ?_⟩
  rw [held, Ne, Dict.get?_eq_none, not_not]

theorem held_put (cid data : Bytes) : held (w.put (cid, data)) = update (held w) cid (some data) := by
  funext c
  simp only [held, MetricsBlockStore.World.put, Dict.get?_set, update_apply]

theorem held_erase (cid : Bytes) : held { w with store := w.store.erase cid } = update (held w) cid none := by
  funext c
  simp only [held, Dict.get?_erase, update_apply]

theorem start_settles (lib : BlockLib) (fails : Prop) (S : Blocks) (req : Request) :
    NotYet lib req (start lib req) ∨ ∃ r, Settled lib req (start lib req) r ∧ Answers lib fails S req r S := by
  cases req with
  | blockStat arg =>
    simp only [start]
    cases harg : parseArg lib arg with
    | error r => exact .inr ⟨r, rfl, .statInvalid harg⟩
    | ok cid => exact .inl harg
  | blockGet arg =>
    simp only [start]
    cases harg : parseArg lib arg with
    | error r => exact .inr ⟨r, rfl, .getInvalid harg⟩
    | ok cid => exact .inl harg
  | blockPut data => exact .inl ⟨rfl, rfl⟩
  | blockRm arg =>
    simp only [start]
    cases harg : lib.parseCid arg with
    | error e => exact .inr ⟨_, rfl, .rmInvalid harg⟩
    | ok cid => exact .inl ⟨cid, harg, rfl⟩
  | refsLocal => exact .inl trivial

theorem afterKeys_answers (lib : BlockLib) (fails : Prop) (w : MetricsBlockStore.World) :
    Answers lib fails (held w) .refsLocal (afterKeys lib w.store.keys) (held w) := by
  unfold afterKeys
  cases hkeys : allKeys lib w.store.keys with
  | error e => exact .refsInvalid (enumerates_keys w) hkeys
  | ok refs => exact .refs (enumerates_keys w) hkeys

theorem runPc_notYet (fails : Prop) (h : runPc lib req w pc = some (w', pc')) (hpc : NotYet lib req pc) :
    NotYet lib req pc' ∧ held w' = held w ∨
      ∃ r, Settled lib req pc' r ∧ Answers lib fails (held w) req r (held w') := by
  cases req with
  | blockStat arg =>
    cases pc with
    | reading cid =>
      obtain ⟨rfl, rfl⟩ := Prod.mk.inj (Option.some.inj h)
      refine .inr ⟨_, rfl, ?_⟩
      cases hs : w.store.get? cid with
      | none => exact .statMissing hpc hs
      | some data => exact .stat hpc hs
    | _ => exact hpc.elim
  | blockGet arg =>
    cases pc with
    | reading cid =>
      obtain ⟨rfl, rfl⟩ := Prod.mk.inj (Option.some.inj h)
      refine .inr ⟨_, rfl, ?_⟩
      cases hs : w.store.get? cid with
      | none => exact .getMissing hpc hs
      | some data => exact .get hpc hs
    | _ => exact hpc.elim
  | blockPut data =>
    cases pc with
    | storing task =>
      cases task with
      | putChecks cid data' =>
        obtain ⟨rfl, rfl⟩ := Prod.mk.inj (Option.some.inj h)
        exact .inl ⟨hpc, rfl⟩
      | putStores cid data' isNew =>
        obtain ⟨rfl, rfl⟩ := Prod.mk.inj (Option.some.inj h)
        obtain ⟨rfl, rfl⟩ := hpc
        refine .inr ⟨_, rfl, ?_⟩
        rw [held_put]
        exact .put
      | _ => exact hpc.elim
    | _ => exact hpc.elim
  | blockRm arg =>
    cases pc with
    | storing task =>
      cases task with
      | deleteChecks cid =>
        obtain ⟨c, hc, rfl⟩ := hpc
        simp only [runPc, MetricsBlockStore.advance] at h
        cases hhas : w.has (lib.cidToBytes c) with
        | true =>
          simp only [hhas, if_true] at h
          obtain ⟨rfl, rfl⟩ := Prod.mk.inj (Option.some.inj h)
          exact .inl ⟨⟨c, hc, rfl⟩, rfl⟩
        | false =>
          -- Nothing is deleted: the effect is that the block is missing now.
          simp only [hhas, Bool.false_eq_true, if_false] at h
          obtain ⟨rfl, rfl⟩ := Prod.mk.inj (Option.some.inj h)
          have hsame : held w = update (held w) (lib.cidToBytes c) none := by
            rw [eq_comm, update_eq_self_iff, eq_comm]
            simpa [MetricsBlockStore.World.has, held] using hhas
          refine .inr ⟨_, rfl, ?_⟩
          nth_rewrite 2 [hsame]
          exact .rm hc
      | deleteSizes cid =>
        obtain ⟨rfl, rfl⟩ := Prod.mk.inj (Option.some.inj h)
        exact .inl ⟨hpc, rfl⟩
      | deleteErases cid size =>
        obtain ⟨rfl, rfl⟩ := Prod.mk.inj (Option.some.inj h)
        obtain ⟨c, hc, rfl⟩ := hpc
        refine .inr ⟨_, rfl, ?_⟩
        rw [held_erase]
        exact .rm hc
      | _ => exact hpc.elim
    | _ => exact hpc.elim
  | refsLocal =>
    cases pc with
    | listing =>
      obtain ⟨rfl, rfl⟩ := Prod.mk.inj (Option.some.inj h)
      exact .inr ⟨_, rfl, afterKeys_answers lib fails w⟩
    | _ => exact hpc.elim

theorem runPc_settled {r : Response} (h : runPc lib req w pc = some (w', pc')) (hpc : Settled lib req pc r) :
    Settled lib req pc' r ∧ held w' = held w := by
  cases pc with
  | storing task =>
    cases req with
    | blockPut data =>
      cases task with
      | putCounts data' isNew =>
        obtain ⟨rfl, rfl⟩ := Prod.mk.inj (Option.some.inj h)
        refine ⟨Eq.symm hpc, ?_⟩
        split_ifs <;> rfl
      | _ => exact hpc.elim
    | blockRm arg =>
      cases task with
      | deleteCounts size =>
        obtain ⟨rfl, rfl⟩ := Prod.mk.inj (Option.some.inj h)
        exact ⟨Eq.symm hpc, rfl⟩
      | _ => exact hpc.elim
    | _ => exact hpc.elim
  | answering r' => contradiction
  | _ => cases req <;> exact hpc.elim

theorem failPc_notYet (h : failPc pc = some pc') (hpc : NotYet lib req pc) :
    NotYet lib req pc' ∨ pc' = .answering genericExceptionHandler := by
  cases pc with
  | reading cid => exact .inr (Option.some.inj h).symm
  | listing => exact .inr (Option.some.inj h).symm
  | answering r => contradiction
  | storing task =>
    cases task with
    | deleteSizes cid =>
      obtain rfl := Option.some.inj h
      cases req with
      | blockRm arg => exact .inl hpc
      | _ => exact hpc.elim
    | putCounts | deleteCounts => contradiction
    | _ => exact .inr (Option.some.inj h).symm

theorem failPc_settled {r : Response} (h : failPc pc = some pc') : ¬Settled lib req pc r := by
  intro hpc
  cases pc with
  | answering r' => contradiction
  | storing task =>
    cases task with
    | putCounts | deleteCounts => contradiction
    | _ => cases req <;> exact hpc.elim
  | _ => cases req <;> exact hpc.elim

theorem Simulates.set (hs : Simulates lib s a) {r : ReqState} {st : Status Request Response} (hfits : Fits lib r st)
    (hheld : S = held w) : Simulates lib { s.setReq k r with world := w } { a.setStatus k st with state := S } := by
  refine ⟨hheld, fun k' => ?_⟩
  by_cases hk : k' = k
  · subst hk
    simpa [State.setReq] using hfits
  · simpa [State.setReq, Atomic.setStatus, hk] using hs.fits k'

theorem Simulates.keep (hs : Simulates lib s a) {r : ReqState} (hfits : Fits lib r (a.status k))
    (hheld : held w = held s.world) : Simulates lib { s.setReq k r with world := w } a := by
  refine ⟨hs.blocks.trans hheld.symm, fun k' => ?_⟩
  by_cases hk : k' = k
  · subst hk
    simpa [State.setReq] using hfits
  · simpa [State.setReq, hk] using hs.fits k'

theorem Simulates.request (hs : Simulates lib s a) (hidle : s.reqs k = .idle) :
    ∃ a', Atomic.Steps (Answers lib fails) a [.call k req] a' ∧
      Simulates lib (s.setReq k (.active req (start lib req))) a' := by
  have hfresh : a.status k = .fresh := by
    have hk := hs.fits k
    rw [hidle] at hk
    generalize a.status k = st at hk ⊢
    cases hk
    rfl
  have hcall : Atomic.Steps (Answers lib fails) a [.call k req] (a.setStatus k (.pending req)) :=
    (Atomic.Step.call k req hfresh).steps
  rcases start_settles lib fails (held s.world) req with hpc | ⟨r, hpc, hanswers⟩
  · exact ⟨_, hcall, hs.set (.notYet hpc) hs.blocks⟩
  · have hstate : (a.setStatus k (.pending req)).state = held s.world := hs.blocks
    have hperform := Atomic.Step.perform k req r (held s.world) (a.setStatus_self k (.pending req))
      (by rw [hstate]; exact hanswers)
    refine ⟨_, hcall.trans hperform.steps, ⟨rfl, fun k' => ?_⟩⟩
    by_cases hk : k' = k
    · subst hk
      simpa [State.setReq] using Fits.settled hpc
    · simpa [State.setReq, Atomic.setStatus, hk] using hs.fits k'

theorem Simulates.run (hs : Simulates lib s a) (hactive : s.reqs k = .active req pc)
    (h : runPc lib req s.world pc = some (w, pc')) :
    ∃ a', Atomic.Steps (Answers lib fails) a [] a' ∧
      Simulates lib { s.setReq k (.active req pc') with world := w } a' := by
  have hk := hs.fits k
  rw [hactive] at hk
  generalize hst : a.status k = st at hk
  cases hk with
  | notYet hpc =>
    rcases runPc_notYet fails h hpc with ⟨hpc', hheld⟩ | ⟨r, hpc', hanswers⟩
    · exact ⟨a, .refl, hs.keep (by rw [hst]; exact .notYet hpc') hheld⟩
    · rw [← hs.blocks] at hanswers
      exact ⟨_, (Atomic.Step.perform k req r _ hst hanswers).steps, hs.set (.settled hpc') rfl⟩
  | settled hpc =>
    obtain ⟨hpc', hheld⟩ := runPc_settled h hpc
    exact ⟨a, .refl, hs.keep (by rw [hst]; exact .settled hpc') hheld⟩

theorem Simulates.fail (hs : Simulates lib s a) (hactive : s.reqs k = .active req pc) (h : failPc pc = some pc')
    (hfails : fails) : ∃ a', Atomic.Steps (Answers lib fails) a [] a' ∧
      Simulates lib (s.setReq k (.active req pc')) a' := by
  have hk := hs.fits k
  rw [hactive] at hk
  generalize hst : a.status k = st at hk
  cases hk with
  | notYet hpc =>
    rcases failPc_notYet h hpc with hpc' | rfl
    · exact ⟨a, .refl, hs.keep (by rw [hst]; exact .notYet hpc') rfl⟩
    · refine ⟨_, (Atomic.Step.perform k req genericExceptionHandler a.state hst (.failed hfails)).steps, ?_⟩
      exact hs.set (.settled (by cases req <;> rfl)) hs.blocks
  | settled hpc => exact absurd hpc (failPc_settled h)

theorem Simulates.respond (hs : Simulates lib s a) {r : Response} (hactive : s.reqs k = .active req (.answering r)) :
    ∃ a', Atomic.Steps (Answers lib fails) a [.answer k r] a' ∧ Simulates lib (s.setReq k .answered) a' := by
  have hk := hs.fits k
  rw [hactive] at hk
  generalize hst : a.status k = st at hk
  cases hk with
  | notYet hpc => cases req <;> exact hpc.elim
  | @settled _ _ r' hpc =>
    obtain rfl : r = r' := by cases req <;> exact hpc
    exact ⟨_, (Atomic.Step.answer k req r hst).steps, hs.set .answered hs.blocks⟩

theorem Simulates.step {e : Event κ} (hs : Simulates lib s a) (hstep : State.Next lib config s e s')
    (hfails : ∀ k, e = .fail k → fails) :
    ∃ a', Atomic.Steps (Answers lib fails) a (seen e) a' ∧ Simulates lib s' a' := by
  unfold State.Next at hstep
  cases e with
  | request k req =>
    simp only [State.step] at hstep
    split at hstep
    · rename_i hidle
      obtain rfl := Option.some.inj hstep
      exact hs.request hidle
    · contradiction
  | run k =>
    simp only [State.step] at hstep
    split at hstep
    · rename_i hactive
      obtain ⟨⟨w, pc'⟩, hpc, rfl⟩ := Option.map_eq_some_iff.mp hstep
      exact hs.run hactive hpc
    · contradiction
  | fail k =>
    simp only [State.step] at hstep
    split at hstep
    · rename_i hactive
      obtain ⟨pc', hpc, rfl⟩ := Option.map_eq_some_iff.mp hstep
      exact hs.fail hactive hpc (hfails k rfl)
    · contradiction
  | respond k r =>
    simp only [State.step] at hstep
    split at hstep
    · rename_i hactive
      split_ifs at hstep with hr
      obtain rfl := Option.some.inj hstep
      subst hr
      exact hs.respond hactive
    · contradiction
  | statRequest k =>
    simp only [State.step] at hstep
    split at hstep
    · obtain rfl := Option.some.inj hstep
      exact ⟨a, .refl, hs.blocks, hs.fits⟩
    · contradiction
  | statRun k =>
    simp only [State.step] at hstep
    split at hstep
    · obtain ⟨pc', -, rfl⟩ := Option.map_eq_some_iff.mp hstep
      exact ⟨a, .refl, hs.blocks, hs.fits⟩
    · contradiction
  | statFail k =>
    simp only [State.step] at hstep
    split at hstep
    · obtain ⟨pc', -, rfl⟩ := Option.map_eq_some_iff.mp hstep
      exact ⟨a, .refl, hs.blocks, hs.fits⟩
    · contradiction
  | statRespond k r =>
    simp only [State.step] at hstep
    split at hstep
    · split_ifs at hstep
      obtain rfl := Option.some.inj hstep
      exact ⟨a, .refl, hs.blocks, hs.fits⟩
    · contradiction

theorem blockApi_linearizable (lib : BlockLib) (config : Config) (w : MetricsBlockStore.World) (es : List (Event κ))
    (s : State κ) (hrun : Run (State.Next lib config) (.initial w) es s) :
    ∃ l, Linearizes (Answers lib (∃ k, .fail k ∈ es)) (held w) (es.flatMap seen) l ∧
      Legal (Answers lib (∃ k, .fail k ∈ es)) (held w) l (held s.world) := by
  have hinit : Simulates lib (.initial w) (.initial (held w) : Atomic κ Blocks Request Response) :=
    ⟨rfl, fun _ => .idle⟩
  have hsim (c : State κ) (e : Event κ) (c' : State κ) (a : Atomic κ Blocks Request Response)
      (hs : Simulates lib c a) (hstep : State.Next lib config c e c' ∧ e ∈ es) :
      ∃ a', Atomic.Steps (Answers lib (∃ k, .fail k ∈ es)) a (seen e) a' ∧ Simulates lib c' a' :=
    hs.step hstep.1 fun k hk => ⟨k, hk ▸ hstep.2⟩
  obtain ⟨l, a, hl, hlegal, hs⟩ := linearizes_of_simulation hsim hinit (hrun.restrict fun e he => he)
  exact ⟨l, hl, hs.blocks ▸ hlegal⟩

def rawALib : BlockLib where
  toCidLib := .ofTable [.rawA, .rawB]
  computeCidV1 data := if data = [97] then KnownCid.rawA.bytes else KnownCid.rawB.bytes
  formatCidBytes cid := if cid = KnownCid.rawA.bytes then KnownCid.rawA.str else KnownCid.rawB.str

def inMemory : Config := ⟨none, "memory"⟩

/-- The block is read, and answered for, while the put that brings it is in progress. -/
def getDuringPut : List (Event Bool) :=
  [.request false (.blockPut [97]), .run false, .request true (.blockGet KnownCid.rawA.str), .run false, .run true,
    .respond true ⟨200, .octets [97]⟩, .run false, .respond false ⟨200, .keySize KnownCid.rawA.str 1⟩]

theorem blockApi_linearizable_getDuringPut :
    ∃ s, Run (State.Next rawALib inMemory) (.initial ⟨.empty, 0, 0⟩) getDuringPut s ∧
      ∃ l, Linearizes (Answers rawALib (∃ k, .fail k ∈ getDuringPut)) (held ⟨.empty, 0, 0⟩)
        (getDuringPut.flatMap seen) l ∧
        Legal (Answers rawALib (∃ k, .fail k ∈ getDuringPut)) (held ⟨.empty, 0, 0⟩) l (held s.world) := by
  have hrun := run_stateAfter (State.step rawALib inMemory) (.initial ⟨.empty, 0, 0⟩) getDuringPut (by decide)
  exact ⟨_, hrun, blockApi_linearizable rawALib inMemory ⟨.empty, 0, 0⟩ getDuringPut _ hrun⟩

end IpfsLite.BlockApi
