import IpfsLite.DagApi
import IpfsLite.Lib.Runs

/-!
`get_many` of `peer/_content.py`, await by await: the nursery with one `_fetch_one` for each CID, while
other tasks put and delete blocks.
-/

namespace IpfsLite.DagApi

open Ipld PyJson PyValue Runs

inductive Raised
  | py (e : PyError)
  | tooSlow
deriving DecidableEq

inductive FetchPc (lib : DagApiLib)
  | started
  | reading (cid : lib.dag.Cid)
  | fetching (cid : lib.dag.Cid)
  | done (node : PyValue)
  | raised (e : Raised)
  | cancelled

namespace FetchPc

variable {lib : DagApiLib}

def ended : FetchPc lib → Bool
  | .done _ | .raised _ | .cancelled => true
  | _ => false

def result : FetchPc lib → PyValue
  | .done node => node
  | _ => .none

def error? : FetchPc lib → Option Raised
  | .raised e => some e
  | _ => Option.none

def isCancelled : FetchPc lib → Bool
  | .cancelled => true
  | _ => false

end FetchPc

structure Nursery (lib : DagApiLib) where
  store : Store
  tasks : ℕ → FetchPc lib
  cancelled : Bool

inductive FetchEvent
  | run (i : ℕ)
  | answered (i : ℕ) (r : Fetched)
  | readFails (i : ℕ) (e : PyError)
  | cancelTask (i : ℕ)
  | cancelScope
  | stored (cid data : Bytes)
  | deleted (cid : Bytes)

inductive Outcome
  | returns (results : List PyValue)
  | group (errors : List Raised)
  | cancelled

section GetMany

variable {lib : DagApiLib}

def Nursery.initial (store : Store) : Nursery lib := ⟨store, fun _ => .started, false⟩

def Nursery.goto (s : Nursery lib) (i : ℕ) (p : FetchPc lib) : Nursery lib :=
  { s with tasks := Function.update s.tasks i p }

theorem goto_tasks (s : Nursery lib) (i j : ℕ) (p : FetchPc lib) :
    (s.goto i p).tasks j = if j = i then p else s.tasks j := Function.update_apply ..

def Nursery.raise (s : Nursery lib) (i : ℕ) (e : Raised) : Nursery lib :=
  { s.goto i (.raised e) with cancelled := true }

def Nursery.finish (s : Nursery lib) (i : ℕ) (r : Except PyError PyValue) : Nursery lib :=
  match r with
  | .ok node => s.goto i (.done node)
  | .error e => s.raise i (.py e)

def blockNotFound (c : String) : PyError := ⟨.blockNotFoundError, s!"Block not found for CID: {c}"⟩

def fetchError (c : String) : Fetched → Option Raised
  | .block _ => Option.none
  | .missing => some (.py (blockNotFound c))
  | .tooSlow => some .tooSlow
  | .raises e => some (.py e)

variable (cids : List String)

def Nursery.runTask (s : Nursery lib) (i : ℕ) (c : String) : Option (Nursery lib) :=
  match s.tasks i with
  | .started =>
    match lib.dag.parseCid c with
    | .ok cid => some (s.goto i (.reading cid))
    | .error e => some (s.raise i (.py e))
  | .reading cid =>
    match s.store.get? (lib.dag.cidToBytes cid) with
    | some data => some (s.finish i (decodeBlock lib cid data))
    | Option.none => some (s.goto i (.fetching cid))
  | _ => Option.none

def Nursery.answer (s : Nursery lib) (i : ℕ) (c : String) (r : Fetched) : Option (Nursery lib) :=
  match s.tasks i with
  | .fetching cid =>
    match r with
    | .block data => some (s.finish i (decodeBlock lib cid data))
    | _ => (fetchError c r).map (s.raise i)
  | _ => Option.none

def Nursery.failRead (s : Nursery lib) (i : ℕ) (e : PyError) : Option (Nursery lib) :=
  match s.tasks i with
  | .reading _ => some (s.raise i (.py e))
  | _ => Option.none

def Nursery.cancel (s : Nursery lib) (i : ℕ) : Option (Nursery lib) :=
  match s.tasks i with
  | .reading _ | .fetching _ => if s.cancelled then some (s.goto i .cancelled) else Option.none
  | _ => Option.none

def Nursery.step (s : Nursery lib) : FetchEvent → Option (Nursery lib)
  | .run i => cids[i]?.bind (s.runTask i)
  | .answered i r => cids[i]?.bind fun c => s.answer i c r
  | .readFails i e => cids[i]?.bind fun _ => s.failRead i e
  | .cancelTask i => s.cancel i
  | .cancelScope => some { s with cancelled := true }
  | .stored cid data => some { s with store := s.store.set cid data }
  | .deleted cid => some { s with store := s.store.erase cid }

def Nursery.ends (s : Nursery lib) : List (FetchPc lib) := (List.range cids.length).map s.tasks

def Nursery.outcome (s : Nursery lib) : Option Outcome :=
  if (s.ends cids).all FetchPc.ended then
    if (s.ends cids).filterMap FetchPc.error? ≠ [] then some (.group ((s.ends cids).filterMap FetchPc.error?))
    else if (s.ends cids).any FetchPc.isCancelled then some .cancelled
    else some (.returns ((s.ends cids).map FetchPc.result))
  else Option.none

end GetMany

section Agrees

variable {lib : DagApiLib} (content : Bytes → Bytes) (cids : List String)

def genuine (s : Nursery lib) : FetchEvent → Bool
  | .stored cid data => data = content cid
  | .answered i (.block data) =>
    match s.tasks i with
    | .fetching cid => data = content (lib.dag.cidToBytes cid)
    | _ => true
  | _ => true

def fetchStep (s : Nursery lib) (e : FetchEvent) : Option (Nursery lib) :=
  if genuine content s e then s.step cids e else Option.none

def FetchStep (s : Nursery lib) (e : FetchEvent) (s' : Nursery lib) : Prop := fetchStep content cids s e = some s'

inductive Fails (lib : DagApiLib) (es : List FetchEvent) (i : ℕ) (c : String) : Raised → Prop
  | parse {e : PyError} (hparse : lib.dag.parseCid c = .error e) : Fails lib es i c (.py e)
  | decode {e : PyError} {cid : lib.dag.Cid} (hparse : lib.dag.parseCid c = .ok cid)
    (hdecode : decodeBlock lib cid (content (lib.dag.cidToBytes cid)) = .error e) : Fails lib es i c (.py e)
  | read {e : PyError} (hread : .readFails i e ∈ es) : Fails lib es i c (.py e)
  | fetch {e : Raised} {r : Fetched} (hanswered : .answered i r ∈ es) (herror : fetchError c r = some e) :
    Fails lib es i c e

def Names (lib : DagApiLib) (c : String) (node : PyValue) : Prop :=
  ∃ cid, lib.dag.parseCid c = .ok cid ∧ decodeBlock lib cid (content (lib.dag.cidToBytes cid)) = .ok node

def TaskFits (es : List FetchEvent) (i : ℕ) (c : String) : FetchPc lib → Prop
  | .started | .cancelled => True
  | .reading cid | .fetching cid => lib.dag.parseCid c = .ok cid
  | .done node => Names content lib c node
  | .raised e => Fails content lib es i c e

structure Fits (es : List FetchEvent) (s : Nursery lib) : Prop where
  store : ∀ cid data, s.store.get? cid = some data → data = content cid
  tasks : ∀ i c, cids[i]? = some c → TaskFits content es i c (s.tasks i)
  cancels : s.cancelled = true → .cancelScope ∈ es ∨ ∃ i < cids.length, ((s.tasks i).error?).isSome
  cancelled : (∃ i, (s.tasks i).isCancelled = true) → s.cancelled = true

variable {content cids} {es : List FetchEvent} {s s' : Nursery lib} {i : ℕ} {c : String}

theorem Fails.append {e : Raised} (h : Fails content lib es i c e) (a : FetchEvent) :
    Fails content lib (es ++ [a]) i c e := by
  cases h with
  | parse hparse => exact .parse hparse
  | decode hparse hdecode => exact .decode hparse hdecode
  | read hread => exact .read (List.mem_append_left _ hread)
  | fetch hanswered herror => exact .fetch (List.mem_append_left _ hanswered) herror

theorem TaskFits.append {p : FetchPc lib} (h : TaskFits content es i c p) (a : FetchEvent) :
    TaskFits content (es ++ [a]) i c p := by
  cases p with
  | raised e => exact Fails.append h a
  | _ => exact h

theorem Fits.tasks_update (h : Fits content cids es s) (a : FetchEvent) {p : FetchPc lib}
    (hp : ∀ c, cids[i]? = some c → TaskFits content (es ++ [a]) i c p) :
    ∀ j c, cids[j]? = some c → TaskFits content (es ++ [a]) j c (Function.update s.tasks i p j) := by
  intro j c hc
  by_cases hj : j = i
  · subst hj
    rw [Function.update_self]
    exact hp c hc
  · rw [Function.update_of_ne hj]
    exact (h.tasks j c hc).append a

theorem Fits.goto (h : Fits content cids es s) (a : FetchEvent) {p : FetchPc lib}
    (hends : (s.tasks i).error? = Option.none)
    (hp : ∀ c, cids[i]? = some c → TaskFits content (es ++ [a]) i c p)
    (hcancelled : p.isCancelled = true → s.cancelled = true) : Fits content cids (es ++ [a]) (s.goto i p) := by
  refine ⟨h.store, h.tasks_update a hp, fun hs => ?_, ?_⟩
  · rcases h.cancels hs with hscope | ⟨j, hj, herror⟩
    · exact .inl (List.mem_append_left _ hscope)
    · have hne : j ≠ i := by
        rintro rfl
        rw [hends] at herror
        cases herror
      refine .inr ⟨j, hj, ?_⟩
      rwa [goto_tasks, if_neg hne]
  · rintro ⟨j, hj⟩
    rw [goto_tasks] at hj
    split_ifs at hj
    · exact hcancelled hj
    · exact h.cancelled ⟨j, hj⟩

theorem Fits.raise (h : Fits content cids es s) (a : FetchEvent) {e : Raised} (hc : cids[i]? = some c)
    (hfails : Fails content lib (es ++ [a]) i c e) : Fits content cids (es ++ [a]) (s.raise i e) := by
  have hi : i < cids.length := (List.getElem?_eq_some_iff.mp hc).1
  refine ⟨h.store, h.tasks_update a fun c' hc' => ?_, fun _ => .inr ⟨i, hi, ?_⟩, fun _ => rfl⟩
  · obtain rfl := Option.some.inj (hc.symm.trans hc')
    exact hfails
  · have hraised : (s.raise i e).tasks i = .raised e := Function.update_self ..
    rw [hraised]
    rfl

theorem Fits.finish (h : Fits content cids es s) (a : FetchEvent) (hc : cids[i]? = some c)
    (hends : (s.tasks i).error? = Option.none) {cid : lib.dag.Cid} (hparse : lib.dag.parseCid c = .ok cid) :
    Fits content cids (es ++ [a]) (s.finish i (decodeBlock lib cid (content (lib.dag.cidToBytes cid)))) := by
  cases hdecode : decodeBlock lib cid (content (lib.dag.cidToBytes cid)) with
  | error e => exact h.raise a hc (.decode hparse hdecode)
  | ok node =>
    refine h.goto a hends (fun c' hc' => ?_) (by simp [FetchPc.isCancelled])
    obtain rfl := Option.some.inj (hc.symm.trans hc')
    exact ⟨cid, hparse, hdecode⟩

theorem Fits.runTask (h : Fits content cids es s) (a : FetchEvent) (hc : cids[i]? = some c)
    (hs : s.runTask i c = some s') : Fits content cids (es ++ [a]) s' := by
  have hfits := h.tasks i c hc
  unfold Nursery.runTask at hs
  cases hp : s.tasks i with
  | started =>
    rw [hp] at hs
    cases hparse : lib.dag.parseCid c with
    | error e =>
      simp only [hparse, Option.some.injEq] at hs
      subst hs
      exact h.raise a hc (.parse hparse)
    | ok cid =>
      simp only [hparse, Option.some.injEq] at hs
      subst hs
      refine h.goto a (by rw [hp]; rfl) (fun c' hc' => ?_) (by simp [FetchPc.isCancelled])
      obtain rfl := Option.some.inj (hc.symm.trans hc')
      exact hparse
  | reading cid =>
    rw [hp] at hs hfits
    cases hstore : s.store.get? (lib.dag.cidToBytes cid) with
    | some data =>
      simp only [hstore, Option.some.injEq] at hs
      subst hs
      obtain rfl := h.store _ _ hstore
      exact h.finish a hc (by rw [hp]; rfl) hfits
    | none =>
      simp only [hstore, Option.some.injEq] at hs
      subst hs
      refine h.goto a (by rw [hp]; rfl) (fun c' hc' => ?_) (by simp [FetchPc.isCancelled])
      obtain rfl := Option.some.inj (hc.symm.trans hc')
      exact hfits
  | _ =>
    rw [hp] at hs
    cases hs

theorem Fits.answer {r : Fetched} (h : Fits content cids es s) (hc : cids[i]? = some c)
    (hs : s.answer i c r = some s') (hgenuine : genuine content s (.answered i r) = true) :
    Fits content cids (es ++ [.answered i r]) s' := by
  have hfits := h.tasks i c hc
  unfold Nursery.answer at hs
  cases hp : s.tasks i with
  | fetching cid =>
    rw [hp] at hs hfits
    cases r with
    | block data =>
      obtain rfl := Option.some.inj hs
      simp only [genuine, hp, decide_eq_true_eq] at hgenuine
      obtain rfl := hgenuine
      exact h.finish _ hc (by rw [hp]; rfl) hfits
    | missing | tooSlow | raises =>
      obtain ⟨e, herror, rfl⟩ := Option.map_eq_some_iff.mp hs
      exact h.raise _ hc (.fetch (by simp) herror)
  | _ =>
    rw [hp] at hs
    cases hs

theorem Fits.step {a : FetchEvent} (h : Fits content cids es s) (hs : FetchStep content cids s a s') :
    Fits content cids (es ++ [a]) s' := by
  obtain ⟨hgenuine, hs⟩ := Option.ite_none_right_eq_some.mp hs
  have hsame (hstore : ∀ cid data, s'.store.get? cid = some data → data = content cid) (htasks : s'.tasks = s.tasks)
      (hcancelled : s'.cancelled = s.cancelled) : Fits content cids (es ++ [a]) s' := by
    refine ⟨hstore, fun i c hc => htasks ▸ (h.tasks i c hc).append a, ?_, ?_⟩
    · rw [hcancelled, htasks]
      exact fun hs => (h.cancels hs).imp_left (List.mem_append_left _)
    · rw [hcancelled, htasks]
      exact h.cancelled
  cases a with
  | run i =>
    obtain ⟨c, hc, hs⟩ := Option.bind_eq_some_iff.mp hs
    exact h.runTask _ hc hs
  | answered i r =>
    obtain ⟨c, hc, hs⟩ := Option.bind_eq_some_iff.mp hs
    exact h.answer hc hs hgenuine
  | readFails i e =>
    obtain ⟨c, hc, hs⟩ := Option.bind_eq_some_iff.mp hs
    unfold Nursery.failRead at hs
    split at hs
    · obtain rfl := Option.some.inj hs
      exact h.raise _ hc (.read (by simp))
    · cases hs
  | cancelTask i =>
    have hs : s.cancel i = some s' := hs
    unfold Nursery.cancel at hs
    split at hs
    · next hp =>
      split_ifs at hs with hcancelled
      obtain rfl := Option.some.inj hs
      exact h.goto _ (by rw [hp]; rfl) (fun _ _ => trivial) fun _ => hcancelled
    · next hp =>
      split_ifs at hs with hcancelled
      obtain rfl := Option.some.inj hs
      exact h.goto _ (by rw [hp]; rfl) (fun _ _ => trivial) fun _ => hcancelled
    · cases hs
  | cancelScope =>
    obtain rfl := Option.some.inj hs
    exact ⟨h.store, fun i c hc => (h.tasks i c hc).append _, fun _ => .inl (by simp), fun _ => rfl⟩
  | stored cid data =>
    obtain rfl := Option.some.inj hs
    refine hsame (fun cid' data' hget => ?_) rfl rfl
    rw [Dict.get?_set] at hget
    split_ifs at hget with hcid
    · obtain rfl := Option.some.inj hget
      rw [hcid]
      exact of_decide_eq_true hgenuine
    · exact h.store _ _ hget
  | deleted cid =>
    obtain rfl := Option.some.inj hs
    refine hsame (fun cid' data' hget => ?_) rfl rfl
    rw [Dict.get?_erase] at hget
    split_ifs at hget
    exact h.store _ _ hget

theorem fits_initial (store : Store) (hstore : ∀ cid data, store.get? cid = some data → data = content cid) :
    Fits content cids [] (Nursery.initial store : Nursery lib) := by
  refine ⟨hstore, fun _ _ _ => trivial, fun hs => ?_, fun ⟨_, hi⟩ => ?_⟩
  · cases hs
  · cases hi

theorem fits_run {store : Store} (hstore : ∀ cid data, store.get? cid = some data → data = content cid)
    (h : Run (FetchStep content cids) (Nursery.initial store) es s) : Fits content cids es s :=
  h.history (fun _ _ _ _ hfits hs => hfits.step hs) (fits_initial store hstore)

theorem names_getNode {node : PyValue} (h : Names content lib c node) : ∃ cid, lib.dag.parseCid c = .ok cid ∧
    ∀ exchange store, (store.get? (lib.dag.cidToBytes cid) = some (content (lib.dag.cidToBytes cid)) ∨
      store.get? (lib.dag.cidToBytes cid) = Option.none ∧
        exchange cid = .block (content (lib.dag.cidToBytes cid))) →
      getNode lib exchange store cid = .ok node := by
  obtain ⟨cid, hparse, hdecode⟩ := h
  refine ⟨cid, hparse, ?_⟩
  rintro exchange store (hstore | ⟨hstore, hexchange⟩)
  · simp only [getNode, hstore, hdecode, orFailure]
  · simp only [getNode, hstore, hexchange, hdecode, orFailure]

end Agrees

def Owes (content : Bytes → Bytes) (lib : DagApiLib) (cids : List String) (es : List FetchEvent) : Outcome → Prop
  | .returns results => List.Forall₂ (fun c node => ∃ cid, lib.dag.parseCid c = .ok cid ∧ ∀ exchange store,
      (store.get? (lib.dag.cidToBytes cid) = some (content (lib.dag.cidToBytes cid)) ∨
        store.get? (lib.dag.cidToBytes cid) = Option.none ∧
          exchange cid = .block (content (lib.dag.cidToBytes cid))) →
        getNode lib exchange store cid = .ok node) cids results
  | .group errors => errors ≠ [] ∧ ∀ e ∈ errors, ∃ i c, cids[i]? = some c ∧ Fails content lib es i c e
  | .cancelled => .cancelScope ∈ es

section Outcome

variable {lib : DagApiLib} {content : Bytes → Bytes} {cids : List String} {es : List FetchEvent} {s : Nursery lib}

theorem mem_ends {p : FetchPc lib} : p ∈ s.ends cids ↔ ∃ i < cids.length, s.tasks i = p := by
  simp [Nursery.ends]

theorem Fits.returns (h : Fits content cids es s) (hended : (s.ends cids).all FetchPc.ended = true)
    (herrors : (s.ends cids).filterMap FetchPc.error? = []) (hcancelled : (s.ends cids).any FetchPc.isCancelled = false) :
    List.Forall₂ (Names content lib) cids ((s.ends cids).map FetchPc.result) := by
  rw [List.forall₂_iff_get]
  refine ⟨by simp [Nursery.ends], fun i hi _ => ?_⟩
  have hmem : s.tasks i ∈ s.ends cids := mem_ends.mpr ⟨i, hi, rfl⟩
  have htask := h.tasks i cids[i] (List.getElem?_eq_getElem hi)
  have hresult : ((s.ends cids).map FetchPc.result).get ⟨i, by simpa [Nursery.ends] using hi⟩ =
      (s.tasks i).result := by simp [Nursery.ends]
  rw [List.get_eq_getElem, hresult]
  have hdone := List.all_eq_true.mp hended _ hmem
  have hraises := List.filterMap_eq_nil_iff.mp herrors _ hmem
  have hgoes := List.any_eq_false.mp hcancelled _ hmem
  cases hp : s.tasks i with
  | done node =>
    rw [hp] at htask
    exact htask
  | raised e => simp [hp, FetchPc.error?] at hraises
  | cancelled => simp [hp, FetchPc.isCancelled] at hgoes
  | _ => simp [hp, FetchPc.ended] at hdone

theorem Fits.group (h : Fits content cids es s) {e : Raised} (he : e ∈ (s.ends cids).filterMap FetchPc.error?) :
    ∃ i c, cids[i]? = some c ∧ Fails content lib es i c e := by
  obtain ⟨p, hp, herror⟩ := List.mem_filterMap.mp he
  obtain ⟨i, hi, rfl⟩ := mem_ends.mp hp
  have hc : cids[i]? = some cids[i] := List.getElem?_eq_getElem hi
  have htask := h.tasks i _ hc
  cases hp : s.tasks i with
  | raised e' =>
    rw [hp] at herror htask
    obtain rfl := Option.some.inj herror
    exact ⟨i, _, hc, htask⟩
  | _ =>
    rw [hp] at herror
    cases herror

theorem Fits.cancelScope (h : Fits content cids es s) (herrors : (s.ends cids).filterMap FetchPc.error? = [])
    (hcancelled : (s.ends cids).any FetchPc.isCancelled = true) : .cancelScope ∈ es := by
  obtain ⟨p, hp, hgoes⟩ := List.any_eq_true.mp hcancelled
  obtain ⟨i, -, rfl⟩ := mem_ends.mp hp
  rcases h.cancels (h.cancelled ⟨i, hgoes⟩) with hscope | ⟨j, hj, herror⟩
  · exact hscope
  · have hnone := List.filterMap_eq_nil_iff.mp herrors _ (mem_ends.mpr ⟨j, hj, rfl⟩)
    rw [hnone] at herror
    cases herror

end Outcome

/-- However the tasks of a `get_many` and those that change the blocks take turns: it returns, in the order of
the CIDs and with every one of them, what `get_node` gives for each alone; or it raises the errors of tasks of
its own; and it is cancelled only from outside. -/
theorem getMany_agrees (content : Bytes → Bytes) (lib : DagApiLib) (cids : List String) (store : Store)
    (hstore : ∀ cid data, store.get? cid = some data → data = content cid) (es : List FetchEvent)
    (s : Nursery lib) (h : Run (FetchStep content cids) (Nursery.initial store) es s) (o : Outcome)
    (ho : s.outcome cids = some o) : Owes content lib cids es o := by
  have hfits := fits_run hstore h
  unfold Nursery.outcome at ho
  split_ifs at ho with hended herrors hcancelled
  · obtain rfl := Option.some.inj ho
    exact ⟨herrors, fun e he => hfits.group he⟩
  · obtain rfl := Option.some.inj ho
    exact hfits.cancelScope (not_not.mp herrors) hcancelled
  · obtain rfl := Option.some.inj ho
    have hnames := hfits.returns hended (not_not.mp herrors) (by simpa using hcancelled)
    exact hnames.imp fun _ _ hname => names_getNode hname

noncomputable def rawLib : DagApiLib where
  toNodeLib := { sampleNodes with dag := DagLib.ofTable [.rawA, .rawB] [] [] [] }
  decodeBody := Ipns.decodeUtf8
  reprBytes _ := "b''"
  cidCodec row := row.codec

def rawContents (cid : Bytes) : Bytes := if cid = KnownCid.rawA.bytes then [97] else [98]

/-- One block is here, and is deleted as soon as it was read; the other is fetched once, and cached by another task. -/
def getsTwice : List FetchEvent :=
  [.run 0, .run 1, .run 2, .run 0, .run 1, .deleted KnownCid.rawA.bytes, .answered 0 (.block [98]),
    .stored KnownCid.rawB.bytes [98], .run 2]

def returnsTwice : Option Outcome → Bool
  | some (.returns [.bytes [98], .bytes [97], .bytes [98]]) => true
  | _ => false

theorem getMany_agrees_twice :
    List.Forall₂ (fun c node => ∃ cid, rawLib.dag.parseCid c = .ok cid ∧ ∀ exchange store,
      (store.get? (rawLib.dag.cidToBytes cid) = some (rawContents (rawLib.dag.cidToBytes cid)) ∨
        store.get? (rawLib.dag.cidToBytes cid) = Option.none ∧
          exchange cid = .block (rawContents (rawLib.dag.cidToBytes cid))) →
        getNode rawLib exchange store cid = .ok node)
      [KnownCid.rawB.str, KnownCid.rawA.str, KnownCid.rawB.str] [.bytes [98], .bytes [97], .bytes [98]] := by
  let cids : List String := [KnownCid.rawB.str, KnownCid.rawA.str, KnownCid.rawB.str]
  let store : Store := Dict.empty.set KnownCid.rawA.bytes [97]
  have hstore : ∀ cid data, store.get? cid = some data → data = rawContents cid := by
    intro cid data hget
    simp only [store, Dict.get?_set, Dict.get?_empty] at hget
    split_ifs at hget with hcid
    obtain rfl := Option.some.inj hget
    rw [hcid]
    rfl
  obtain ⟨s, hrun, hreturns⟩ := exists_run (fetchStep rawContents cids) (Nursery.initial store : Nursery rawLib) getsTwice
    (fun s => returnsTwice (s.outcome cids)) (by decide +kernel)
  have ho : s.outcome cids = some (.returns [.bytes [98], .bytes [97], .bytes [98]]) := by
    unfold returnsTwice at hreturns
    split at hreturns
    · assumption
    · cases hreturns
  exact getMany_agrees rawContents rawLib cids store hstore getsTwice s hrun _ ho

end IpfsLite.DagApi
