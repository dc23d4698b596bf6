import IpfsLite.DagJson
import IpfsLite.PubsubPasses
import Mathlib.Data.String.Basic

/-!
`auto_pubsub_topics.json`: what a peer that is started anew knows of the topics that it had joined by
itself. The process may be killed at any await, and between two operations of a save.
-/

namespace IpfsLite.PubsubAutoJoin

open Runs PyJson Ipld

def rstripSlash (cs : List Char) : List Char := (cs.reverse.dropWhile (· = '/')).reverse

def dirname (cs : List Char) : List Char :=
  let head := (cs.reverse.dropWhile (· ≠ '/')).reverse
  if head.all (· = '/') then head else rstripSlash head

def joinPath (base name : List Char) : List Char :=
  if base = [] ∨ base.getLast? = some '/' then base ++ name else base ++ '/' :: name

def autoPubsubPath (cfg : Config) (blockstoreType : String) (blockstorePath : Option String) : Option String :=
  if ¬cfg.persistTopics ∨ blockstoreType = "memory" ∨ blockstorePath.getD "" = "" then none
  else
    let base := dirname (blockstorePath.getD "").toList
    some (String.ofList (joinPath (if base = [] then ['.'] else base) "auto_pubsub_topics.json".toList))

/-- `json.dump` of the sorted topics. -/
def dumpTopics (topics : Finset String) : String :=
  String.ofList ('[' :: ([',', ' '].intercalate ((topics.sort (· ≤ ·)).map fun t => encodeBasestringAscii (.text t)) ++ [']']))

def asTopic : PyValue → Option String
  | .str (.text t) => some t
  | _ => none

section File

variable (parseFloat : List Char → BitVec 64)

/-- `file` is the text at the path, if there is one. -/
def loadTopics (path file : Option String) : List String :=
  match path, file with
  | some _, some text =>
    match (jsonLoads parseFloat text).bind (PyValue.iter .builtins) with
    | .ok items => items.filterMap asTopic
    | .error _ => []
  | _, _ => []

theorem loadTopics_dump (path : String) (topics : Finset String) :
    loadTopics parseFloat (some path) (some (dumpTopics topics)) = topics.sort (· ≤ ·) := by
  have htexts : List.Forall₂ (Ipld.Reads parseFloat) ((topics.sort (· ≤ ·)).map fun t => encodeBasestringAscii (.text t))
      ((topics.sort (· ≤ ·)).map fun t => PyValue.str (.text t)) := by
    rw [List.forall₂_map_left_iff, List.forall₂_map_right_iff, List.forall₂_same]
    exact fun t _ => reads_string (.text t)
  have hloads : jsonLoads parseFloat (dumpTopics topics) =
      .ok (.list ((topics.sort (· ≤ ·)).map fun t => .str (.text t))) :=
    jsonLoads_reads (reads_items htexts)
  have hstrings (ts : List String) : (ts.map fun t => PyValue.str (.text t)).filterMap asTopic = ts := by
    rw [List.filterMap_map]
    exact List.filterMap_some
  simp only [loadTopics, hloads, Except.bind, PyValue.iter, hstrings]

end File

/-- `changed` is there during a pass, with whether the pass has joined or left a topic. -/
structure Proc where
  sys : Sys
  changed : Option Bool

structure Daemon where
  proc : Option Proc
  file : Option String

def Daemon.new : Daemon := ⟨none, none⟩

/-- `os.replace` takes place or not before the process is killed. -/
inductive SaveEnd
  | replaced
  | failed
  | killed (replaced : Bool)
deriving DecidableEq

inductive ProcEvent
  | start (peerId : Option String)
  | run (e : Event)
  | endPass
  | save (ends : SaveEnd)
  | killed

section Process

variable (cfg : Config) (parseFloat : List Char → BitVec 64) (path : Option String)

def leaves (s : Sys) : Event → List String
  | .discoveryPass true peerTopics order => Sys.stale cfg s (Sys.score cfg peerTopics order s.topicStats)
  | _ => []

def Proc.changes (p : Proc) : Event → Option Bool
  | .discoveryPass running peerTopics order =>
    if running then some (leaves cfg p.sys (.discoveryPass running peerTopics order) ≠ []) else none
  | e => if (joins cfg p.sys e).isSome then some true else p.changed

def Proc.allows (p : Proc) : Event → Bool
  | .initPubsub .. => false
  | .discoveryPass .. => p.changed = none ∧ 0 < cfg.autoJoinMinPeers
  | .next _ | .subscribe .. | .unsubscribe _ => true

def savedFile (topics : Finset String) (file : Option String) : Option String :=
  if path.isSome then some (dumpTopics topics) else file

def runProc (p : Proc) (e : Event) : Option Proc :=
  if p.allows cfg e then (step cfg p.sys e).map fun s => ⟨s, p.changes cfg e⟩ else none

def endSave (p : Proc) (file : Option String) : SaveEnd → Daemon
  | .replaced => ⟨some { p with changed := none }, savedFile path p.sys.autoJoined file⟩
  -- the exception is logged, and the file is what it was
  | .failed => ⟨some { p with changed := none }, file⟩
  | .killed replaced => ⟨none, if replaced then savedFile path p.sys.autoJoined file else file⟩

def stepDaemon (d : Daemon) : ProcEvent → Option Daemon
  | .start peerId =>
    match d.proc with
    | none => (step cfg .init (.initPubsub peerId (loadTopics parseFloat path d.file))).map fun s =>
        { d with proc := some ⟨s, none⟩ }
    | some _ => none
  | .run e => d.proc.bind fun p => (runProc cfg p e).map fun p => { d with proc := some p }
  | .endPass => d.proc.bind fun p =>
      if p.sys.queue = [] ∧ p.changed = some false then some { d with proc := some { p with changed := none } }
      else none
  | .save ends => d.proc.bind fun p =>
      if p.sys.queue = [] ∧ p.changed = some true then some (endSave path p d.file ends) else none
  | .killed => some { d with proc := none }

abbrev Steps (d : Daemon) (a : ProcEvent) (d' : Daemon) : Prop := stepDaemon cfg parseFloat path d a = some d'

end Process

/-! Where the topics come from -/

section Moves

variable {cfg : Config} {s s' : Sys} {e : Event} {topic : String}

structure Moves (cfg : Config) (s : Sys) (e : Event) (s' : Sys) : Prop where
  autoJoined : ∀ topic ∈ s'.autoJoined, topic ∈ s.autoJoined ∨ .rejoin topic ∈ s.queue ∨ topic ∈ joins cfg s e
  rejoins : ∀ topic, .rejoin topic ∈ s'.queue → .rejoin topic ∈ s.queue

theorem Moves.subscribe (h : Moves cfg s e s') (topic : String) (result : Option ℕ) :
    Moves cfg s e (s'.subscribePubsubTopic topic result) := by
  obtain ⟨-, hqueue⟩ := subscribe_topicStats s' topic result
  constructor
  · rw [subscribe_autoJoined]
    exact h.autoJoined
  · rw [hqueue]
    exact h.rejoins

theorem Moves.autoJoin (h : Moves cfg s e s') (ht : .rejoin topic ∈ s.queue ∨ topic ∈ joins cfg s e) :
    Moves cfg s e (s'.autoJoin topic) := by
  constructor
  · intro t hmem
    rcases Finset.mem_insert.mp hmem with rfl | hmem
    · exact .inr ht
    · exact h.autoJoined t hmem
  · exact h.rejoins

theorem next_moves {result : Option ℕ} (h : step cfg s (.next result) = some s') :
    Moves cfg s (.next result) s' := by
  cases hq : s.queue with
  | nil => simp [step, hq] at h
  | cons todo rest =>
    have hrest : Moves cfg s (.next result) { s with queue := rest } := by
      refine ⟨fun t ht => .inl ht, fun t ht => ?_⟩
      rw [hq]
      exact List.mem_cons_of_mem _ ht
    simp only [step, hq] at h
    cases todo with
    | configured topic =>
      obtain rfl := Option.some.inj h
      exact hrest.subscribe topic result
    | ownIpns topic =>
      obtain rfl := Option.some.inj h
      have hown : Moves cfg s (.next result) { s with queue := rest, ownIpnsTopic := topic } :=
        ⟨hrest.autoJoined, hrest.rejoins⟩
      exact hown.subscribe topic result
    | rejoin topic =>
      dsimp only at h
      split_ifs at h
      · obtain rfl := Option.some.inj h
        exact hrest
      · obtain rfl := Option.some.inj h
        refine (hrest.subscribe topic result).autoJoin (.inl ?_)
        rw [hq]
        exact List.mem_cons_self
    | join topic =>
      dsimp only at h
      split_ifs at h with hcap
      · obtain rfl := Option.some.inj h
        exact ⟨fun t ht => .inl ht, fun t ht => absurd ht List.not_mem_nil⟩
      · obtain rfl := Option.some.inj h
        have hjoins : topic ∈ joins cfg s (.next result) := by simp [joins, hq, hcap]
        exact (hrest.subscribe topic result).autoJoin (.inr hjoins)

theorem step_moves (h : step cfg s e = some s') (hinit : ∀ peerId persisted, e ≠ .initPubsub peerId persisted) :
    Moves cfg s e s' := by
  cases e with
  | initPubsub peerId persisted => exact absurd rfl (hinit peerId persisted)
  | discoveryPass running peerTopics order =>
    cases running with
    | false =>
      have hsame : some s = some s' := h
      obtain rfl := Option.some.inj hsame
      exact ⟨fun t ht => .inl ht, fun t ht => ht⟩
    | true =>
      obtain ⟨-, rfl⟩ := pass_scored h
      refine ⟨fun t ht => .inl (Finset.sdiff_subset ht), fun t ht => ?_⟩
      obtain ⟨_, -, hjoin⟩ := List.mem_map.mp ht
      contradiction
  | next result => exact next_moves h
  | subscribe topic result =>
    obtain rfl := Option.some.inj h
    have hsame : Moves cfg s (.subscribe topic result) s := ⟨fun t ht => .inl ht, fun t ht => ht⟩
    exact hsame.subscribe topic result
  | unsubscribe topic =>
    obtain rfl := Option.some.inj h
    exact ⟨fun t ht => .inl ht, fun t ht => ht⟩

theorem init_moves {peerId : Option String} {persisted : List String}
    (h : step cfg .init (.initPubsub peerId persisted) = some s') :
    s'.autoJoined = ∅ ∧ (∀ topic, .rejoin topic ∈ s'.queue → topic ∈ persisted) ∧
      s'.queue = Sys.startUp cfg peerId persisted := by
  obtain rfl := Option.some.inj h
  refine ⟨rfl, fun topic ht => ?_, rfl⟩
  simp only [Sys.startUp, List.mem_append, List.mem_map, Option.mem_toList, Option.map_eq_some_iff] at ht
  rcases ht with (⟨_, -, hother⟩ | ⟨_, -, hother⟩) | ht
  · contradiction
  · contradiction
  · split_ifs at ht
    · obtain ⟨t, hmem, heq⟩ := List.mem_map.mp ht
      obtain rfl := Todo.rejoin.inj heq
      exact hmem
    · contradiction

end Moves

section Runs

variable {cfg : Config} {parseFloat : List Char → BitVec 64} {path : Option String} {d d' : Daemon}
  {a : ProcEvent} {as : List ProcEvent} {topic : String}

section Cases

variable (cfg parseFloat path)

inductive DaemonStep (d : Daemon) : ProcEvent → Daemon → Prop
  | start {peerId : Option String} {s : Sys} (hproc : d.proc = none)
    (hstep : step cfg .init (.initPubsub peerId (loadTopics parseFloat path d.file)) = some s) :
    DaemonStep d (.start peerId) { d with proc := some ⟨s, none⟩ }
  | run {p : Proc} {e : Event} {s : Sys} (hproc : d.proc = some p) (hallows : p.allows cfg e = true)
    (hstep : step cfg p.sys e = some s) : DaemonStep d (.run e) { d with proc := some ⟨s, p.changes cfg e⟩ }
  | endPass {p : Proc} (hproc : d.proc = some p) (hchanged : p.changed = some false) :
    DaemonStep d .endPass { d with proc := some { p with changed := none } }
  | save {p : Proc} (hproc : d.proc = some p) (hqueue : p.sys.queue = []) (ends : SaveEnd) :
    DaemonStep d (.save ends) (endSave path p d.file ends)
  | killed : DaemonStep d .killed { d with proc := none }

end Cases

theorem daemon_cases (h : Steps cfg parseFloat path d a d') : DaemonStep cfg parseFloat path d a d' := by
  unfold Steps at h
  cases a with
  | start peerId =>
    rw [stepDaemon] at h
    cases hproc : d.proc with
    | some p => simp [hproc] at h
    | none =>
      rw [hproc] at h
      obtain ⟨s, hs, rfl⟩ := Option.map_eq_some_iff.mp h
      exact .start hproc hs
  | run e =>
    obtain ⟨p, hproc, h⟩ := Option.bind_eq_some_iff.mp h
    obtain ⟨q, hq, rfl⟩ := Option.map_eq_some_iff.mp h
    unfold runProc at hq
    split_ifs at hq with hallows
    obtain ⟨s, hs, rfl⟩ := Option.map_eq_some_iff.mp hq
    exact .run hproc hallows hs
  | endPass =>
    obtain ⟨p, hproc, h⟩ := Option.bind_eq_some_iff.mp h
    split_ifs at h with hend
    obtain rfl := Option.some.inj h
    exact .endPass hproc hend.2
  | save ends =>
    obtain ⟨p, hproc, h⟩ := Option.bind_eq_some_iff.mp h
    split_ifs at h with hend
    obtain rfl := Option.some.inj h
    exact .save hproc hend.1 ends
  | killed =>
    obtain rfl := Option.some.inj h
    exact .killed

theorem allows_noInit {p : Proc} {e : Event} (h : p.allows cfg e = true) (peerId : Option String)
    (persisted : List String) : e ≠ .initPubsub peerId persisted := by
  rintro rfl
  contradiction

variable (cfg parseFloat path) in
def JoinedIn (as : List ProcEvent) (topic : String) : Prop :=
  ∃ pre e post d p, as = pre ++ .run e :: post ∧ Run (Steps cfg parseFloat path) .new pre d ∧
    d.proc = some p ∧ topic ∈ joins cfg p.sys e

theorem JoinedIn.later (h : JoinedIn cfg parseFloat path as topic) (a : ProcEvent) :
    JoinedIn cfg parseFloat path (as ++ [a]) topic := by
  obtain ⟨pre, e, post, d, p, rfl, hrest⟩ := h
  exact ⟨pre, e, post ++ [a], d, p, by simp, hrest⟩

variable (cfg parseFloat path) in
structure Known (as : List ProcEvent) (d : Daemon) : Prop where
  file : ∀ text ∈ d.file, ∃ topics, text = dumpTopics topics ∧
    ∀ topic ∈ topics, JoinedIn cfg parseFloat path as topic
  autoJoined : ∀ p ∈ d.proc, ∀ topic ∈ p.sys.autoJoined, JoinedIn cfg parseFloat path as topic
  rejoins : ∀ p ∈ d.proc, ∀ topic, .rejoin topic ∈ p.sys.queue → JoinedIn cfg parseFloat path as topic

theorem Known.loaded (h : Known cfg parseFloat path as d) (ht : topic ∈ loadTopics parseFloat path d.file) :
    JoinedIn cfg parseFloat path as topic := by
  cases hpath : path with
  | none => simp [loadTopics, hpath] at ht
  | some p =>
    cases hfile : d.file with
    | none => simp [loadTopics, hfile] at ht
    | some text =>
      obtain ⟨topics, rfl, htopics⟩ := h.file text hfile
      rw [hpath, hfile, loadTopics_dump, Finset.mem_sort] at ht
      rw [← hpath]
      exact htopics topic ht

theorem Known.later (h : Known cfg parseFloat path as d) (a : ProcEvent) :
    Known cfg parseFloat path (as ++ [a]) d := by
  refine ⟨?_, fun p hp t ht => (h.autoJoined p hp t ht).later a, fun p hp t ht => (h.rejoins p hp t ht).later a⟩
  intro text htext
  obtain ⟨topics, hdump, htopics⟩ := h.file text htext
  exact ⟨topics, hdump, fun t ht => (htopics t ht).later a⟩

theorem Known.saved (h : Known cfg parseFloat path as d) {p : Proc} (hp : d.proc = some p) :
    ∀ text ∈ savedFile path p.sys.autoJoined d.file, ∃ topics, text = dumpTopics topics ∧
      ∀ topic ∈ topics, JoinedIn cfg parseFloat path as topic := by
  intro text htext
  unfold savedFile at htext
  split_ifs at htext
  · exact ⟨p.sys.autoJoined, (Option.some.inj htext).symm, h.autoJoined p hp⟩
  · exact h.file text htext

theorem known_step (hrun : Run (Steps cfg parseFloat path) .new as d) (h : Known cfg parseFloat path as d)
    (hstep : Steps cfg parseFloat path d a d') : Known cfg parseFloat path (as ++ [a]) d' := by
  have hlater := h.later a
  cases daemon_cases hstep with
  | start hproc hs =>
    obtain ⟨hauto, hrejoins, -⟩ := init_moves hs
    refine ⟨hlater.file, ?_, ?_⟩
    · intro p hp topic ht
      obtain rfl := Option.some.inj hp
      rw [hauto] at ht
      exact absurd ht (Finset.notMem_empty topic)
    · intro p hp topic ht
      obtain rfl := Option.some.inj hp
      exact hlater.loaded (hrejoins topic ht)
  | @run p e s hproc hallows hs =>
    have hmoves := step_moves hs (allows_noInit hallows)
    refine ⟨hlater.file, ?_, ?_⟩
    · intro q hq topic ht
      obtain rfl := Option.some.inj hq
      rcases hmoves.autoJoined topic ht with hold | hdue | hjoins
      · exact hlater.autoJoined p hproc topic hold
      · exact hlater.rejoins p hproc topic hdue
      · exact ⟨as, e, [], d, p, rfl, hrun, hproc, hjoins⟩
    · intro q hq topic ht
      obtain rfl := Option.some.inj hq
      exact hlater.rejoins p hproc topic (hmoves.rejoins topic ht)
  | @endPass p hproc =>
    refine ⟨hlater.file, ?_, ?_⟩
    · intro q hq
      obtain rfl := Option.some.inj hq
      exact hlater.autoJoined p hproc
    · intro q hq
      obtain rfl := Option.some.inj hq
      exact hlater.rejoins p hproc
  | @save p hproc _ ends =>
    have hsaved := hlater.saved hproc
    have hsame : ∀ q ∈ some { p with changed := none }, q.sys = p.sys := by
      intro q hq
      obtain rfl := Option.some.inj hq
      rfl
    cases ends with
    | replaced =>
      refine ⟨hsaved, fun q hq => ?_, fun q hq => ?_⟩
      · rw [hsame q hq]
        exact hlater.autoJoined p hproc
      · rw [hsame q hq]
        exact hlater.rejoins p hproc
    | failed =>
      refine ⟨hlater.file, fun q hq => ?_, fun q hq => ?_⟩
      · rw [hsame q hq]
        exact hlater.autoJoined p hproc
      · rw [hsame q hq]
        exact hlater.rejoins p hproc
    | killed replaced =>
      refine ⟨?_, fun q hq => by contradiction, fun q hq => by contradiction⟩
      cases replaced with
      | true => exact hsaved
      | false => exact hlater.file
  | killed => exact ⟨hlater.file, fun q hq => by contradiction, fun q hq => by contradiction⟩

theorem known_run (hrun : Run (Steps cfg parseFloat path) .new as d) : Known cfg parseFloat path as d := by
  have hboth : Run (Steps cfg parseFloat path) .new as d ∧ Known cfg parseFloat path as d := by
    induction hrun with
    | refl =>
      exact ⟨.refl, fun text ht => by contradiction, fun p hp => by contradiction, fun p hp => by contradiction⟩
    | tail hrun hstep ih => exact ⟨ih.1.tail hstep, known_step ih.1 ih.2 hstep⟩
  exact hboth.2

/-! What a process that is killed leaves to the next one -/

variable (parseFloat path) in
structure Kept (d : Daemon) : Prop where
  autoJoined : ∀ p ∈ d.proc, p.changed ≠ some true →
    ∀ topic ∈ p.sys.autoJoined, topic ∈ loadTopics parseFloat path d.file
  rejoins : ∀ p ∈ d.proc, ∀ topic, .rejoin topic ∈ p.sys.queue → topic ∈ loadTopics parseFloat path d.file

theorem changes_ne {p : Proc} {e : Event} (hallows : p.allows cfg e = true) (h : p.changes cfg e ≠ some true) :
    p.changed ≠ some true ∧ joins cfg p.sys e = none := by
  cases e with
  | initPubsub peerId persisted => contradiction
  | discoveryPass running peerTopics order =>
    have hnone : p.changed = none := (of_decide_eq_true hallows).1
    exact ⟨by simp [hnone], rfl⟩
  | next result =>
    simp only [Proc.changes] at h
    split_ifs at h with hjoins
    · exact absurd rfl h
    · exact ⟨h, by simpa using hjoins⟩
  | subscribe topic result => exact ⟨h, rfl⟩
  | unsubscribe topic => exact ⟨h, rfl⟩

theorem kept_step (hpath : path.isSome) (h : Kept parseFloat path d) (hstep : Steps cfg parseFloat path d a d')
    (hsave : a ≠ .save .failed) : Kept parseFloat path d' := by
  cases daemon_cases hstep with
  | start hproc hs =>
    obtain ⟨hauto, hrejoins, -⟩ := init_moves hs
    refine ⟨?_, ?_⟩
    · intro p hp _ topic ht
      obtain rfl := Option.some.inj hp
      rw [hauto] at ht
      exact absurd ht (Finset.notMem_empty topic)
    · intro p hp topic ht
      obtain rfl := Option.some.inj hp
      exact hrejoins topic ht
  | @run p e s hproc hallows hs =>
    have hmoves := step_moves hs (allows_noInit hallows)
    refine ⟨?_, ?_⟩
    · intro q hq hchanges topic ht
      obtain rfl := Option.some.inj hq
      obtain ⟨hchanged, hnone⟩ := changes_ne hallows hchanges
      rcases hmoves.autoJoined topic ht with hold | hdue | hjoins
      · exact h.autoJoined p hproc hchanged topic hold
      · exact h.rejoins p hproc topic hdue
      · rw [hnone] at hjoins
        contradiction
    · intro q hq topic ht
      obtain rfl := Option.some.inj hq
      exact h.rejoins p hproc topic (hmoves.rejoins topic ht)
  | @endPass p hproc hchanged =>
    refine ⟨?_, ?_⟩
    · intro q hq _ topic ht
      obtain rfl := Option.some.inj hq
      exact h.autoJoined p hproc (by simp [hchanged]) topic ht
    · intro q hq
      obtain rfl := Option.some.inj hq
      exact h.rejoins p hproc
  | @save p hproc hqueue ends =>
    cases ends with
    | failed => exact absurd rfl hsave
    | killed replaced => exact ⟨fun q hq => by contradiction, fun q hq => by contradiction⟩
    | replaced =>
      obtain ⟨pa, rfl⟩ := Option.isSome_iff_exists.mp hpath
      refine ⟨?_, ?_⟩
      · intro q hq _ topic ht
        obtain rfl := Option.some.inj hq
        change topic ∈ loadTopics parseFloat (some pa) (some (dumpTopics p.sys.autoJoined))
        rw [loadTopics_dump]
        exact (Finset.mem_sort _).mpr ht
      · intro q hq topic ht
        obtain rfl := Option.some.inj hq
        change .rejoin topic ∈ p.sys.queue at ht
        rw [hqueue] at ht
        contradiction
  | killed => exact ⟨fun q hq => by contradiction, fun q hq => by contradiction⟩

theorem kept_run (hpath : path.isSome) (hrun : Run (Steps cfg parseFloat path) .new as d)
    (hsaves : .save .failed ∉ as) : Kept parseFloat path d := by
  have hsafe := hrun.restrict (p := fun a => a ≠ .save .failed) fun a ha heq => hsaves (heq ▸ ha)
  refine hsafe.invariant (P := Kept parseFloat path) (fun _ _ _ h hstep => kept_step hpath h hstep.1 hstep.2) ?_
  exact ⟨fun p hp => by contradiction, fun p hp => by contradiction⟩

def IsBoot : ProcEvent → Prop
  | .run (.next _) | .run (.subscribe ..) => True
  | _ => False

structure Booting (topics : List String) (s : Sys) : Prop where
  noJoin : ∀ topic, .join topic ∉ s.queue
  due : ∀ topic ∈ topics, .rejoin topic ∈ s.queue ∨ topic ∈ s.autoJoined ∨ topic ∈ s.subscriptions.keys

variable {topics : List String} {s s' : Sys}

theorem Booting.subscribe (h : Booting topics s) (topic : String) (result : Option ℕ) :
    Booting topics (s.subscribePubsubTopic topic result) := by
  obtain ⟨-, hqueue⟩ := subscribe_topicStats s topic result
  constructor
  · rw [hqueue]
    exact h.noJoin
  · intro t ht
    rw [hqueue, subscribe_autoJoined, subscribe_keys]
    rcases h.due t ht with hdue | hauto | hsub
    · exact .inl hdue
    · exact .inr (.inl hauto)
    · exact .inr (.inr (.inl hsub))

theorem Booting.drop {todo : Todo} {rest : List Todo} (h : Booting topics s) (hq : s.queue = todo :: rest)
    (hdone : ∀ topic, todo = .rejoin topic → topic ∈ s.autoJoined ∨ topic ∈ s.subscriptions.keys) :
    Booting topics { s with queue := rest } := by
  constructor
  · intro t ht
    refine h.noJoin t ?_
    rw [hq]
    exact List.mem_cons_of_mem _ ht
  · intro t ht
    rcases h.due t ht with hdue | hkept
    · rw [hq] at hdue
      rcases List.mem_cons.mp hdue with heq | hdue
      · exact .inr (hdone t heq.symm)
      · exact .inl hdue
    · exact .inr hkept

theorem Booting.next (h : Booting topics s) {result : Option ℕ} (hstep : step cfg s (.next result) = some s') :
    Booting topics s' := by
  cases hq : s.queue with
  | nil => simp [step, hq] at hstep
  | cons todo rest =>
    simp only [step, hq] at hstep
    cases todo with
    | configured topic =>
      obtain rfl := Option.some.inj hstep
      exact (h.drop hq fun t ht => by contradiction).subscribe topic result
    | ownIpns topic =>
      obtain rfl := Option.some.inj hstep
      have hrest := h.drop hq fun t ht => by contradiction
      have hown : Booting topics { s with queue := rest, ownIpnsTopic := topic } := ⟨hrest.noJoin, hrest.due⟩
      exact hown.subscribe topic result
    | rejoin topic =>
      dsimp only at hstep
      split_ifs at hstep with hsub
      · obtain rfl := Option.some.inj hstep
        refine h.drop hq fun t ht => .inr ?_
        obtain rfl := Todo.rejoin.inj ht
        exact hsub
      · obtain rfl := Option.some.inj hstep
        have hjoined : Booting topics (s.autoJoin topic) := by
          refine ⟨h.noJoin, fun t ht => ?_⟩
          rcases h.due t ht with hdue | hauto | hsub
          · exact .inl hdue
          · exact .inr (.inl (Finset.mem_insert_of_mem hauto))
          · exact .inr (.inr hsub)
        have hrest : Booting topics { s.autoJoin topic with queue := rest } := by
          refine hjoined.drop hq fun t ht => .inl ?_
          obtain rfl := Todo.rejoin.inj ht
          exact Finset.mem_insert_self _ _
        have hsubscribed := hrest.subscribe topic result
        have hsame : { s.autoJoin topic with queue := rest }.subscribePubsubTopic topic result =
            ({ s with queue := rest }.subscribePubsubTopic topic result).autoJoin topic := by
          cases result <;> simp [Sys.subscribePubsubTopic, Sys.autoJoin, hsub]
        rwa [hsame] at hsubscribed
    | join topic =>
      refine absurd ?_ (h.noJoin topic)
      rw [hq]
      exact List.mem_cons_self

theorem booting_run {boot : List ProcEvent} {p : Proc} (hproc : d.proc = some p) (h : Booting topics p.sys)
    (hrun : Run (Steps cfg parseFloat path) d boot d') (hevents : ∀ a ∈ boot, IsBoot a) :
    ∃ p', d'.proc = some p' ∧ Booting topics p'.sys := by
  have hsafe := hrun.restrict hevents
  refine hsafe.invariant (P := fun u => ∃ p, u.proc = some p ∧ Booting topics p.sys) ?_ ⟨p, hproc, h⟩
  rintro u a v ⟨p, hproc, h⟩ ⟨hstep, hboot⟩
  cases daemon_cases hstep with
  | @run q e s hq _ hs =>
    obtain rfl := Option.some.inj (hproc.symm.trans hq)
    refine ⟨_, rfl, ?_⟩
    cases e with
    | next result => exact h.next hs
    | subscribe topic result =>
      obtain rfl := Option.some.inj hs
      exact h.subscribe topic result
    | initPubsub peerId persisted => exact absurd hboot id
    | discoveryPass running peerTopics order => exact absurd hboot id
    | unsubscribe topic => exact absurd hboot id
  | start => exact absurd hboot id
  | endPass => exact absurd hboot id
  | save => exact absurd hboot id
  | killed => exact absurd hboot id

end Runs

theorem autoPubsubPath_persists {cfg : Config} {blockstoreType path : String} {blockstorePath : Option String}
    (h : autoPubsubPath cfg blockstoreType blockstorePath = some path) : cfg.persistTopics = true := by
  unfold autoPubsubPath at h
  split_ifs at h with hnone
  by_contra hoff
  exact hnone (.inl hoff)

/-- Whenever the process is killed, no topic is made up: what is auto-joined, and what the file says, has
been joined by a pass, and the file is never half a document. -/
theorem autoJoined_known (cfg : Config) (parseFloat : List Char → BitVec 64) (path : Option String)
    (as : List ProcEvent) (d : Daemon) (hrun : Run (Steps cfg parseFloat path) .new as d) :
    (∀ p ∈ d.proc, ∀ topic ∈ p.sys.autoJoined, JoinedIn cfg parseFloat path as topic) ∧
      ∀ text ∈ d.file, ∃ topics, text = dumpTopics topics ∧
        ∀ topic ∈ topics, JoinedIn cfg parseFloat path as topic := by
  have h := known_run hrun
  exact ⟨h.autoJoined, h.file⟩

def newsJoined : List ProcEvent :=
  [.start none, .run (.discoveryPass true (Dict.ofList [("news", 2)]) ["news"]), .endPass,
    .run (.discoveryPass true (Dict.ofList [("news", 2)]) ["news"]), .run (.next (some 0)), .save .replaced]

def newsPath : String := ".py_ipfs_lite/auto_pubsub_topics.json"

def newsStep : Daemon → ProcEvent → Option Daemon := stepDaemon {} (fun _ => 0) (some newsPath)

def newsFound (d : Daemon) : Bool :=
  d.file = some "[\"news\"]" && d.proc.any fun p => "news" ∈ p.sys.autoJoined && p.changed = none

theorem autoJoined_known_news : ∃ d, newsFound d = true ∧
    (∀ p ∈ d.proc, ∀ topic ∈ p.sys.autoJoined, JoinedIn {} (fun _ => 0) (some newsPath) newsJoined topic) ∧
      ∀ text ∈ d.file, ∃ topics, text = dumpTopics topics ∧
        ∀ topic ∈ topics, JoinedIn {} (fun _ => 0) (some newsPath) newsJoined topic := by
  obtain ⟨d, hrun, hfound⟩ := exists_run newsStep .new newsJoined newsFound (by decide +kernel)
  exact ⟨d, hfound, autoJoined_known {} (fun _ => 0) (some newsPath) newsJoined d hrun⟩

theorem autoJoined_restored (cfg : Config) (parseFloat : List Char → BitVec 64) (hmin : 0 < cfg.autoJoinMinPeers)
    (blockstoreType : String) (blockstorePath : Option String) (path : String)
    (hpath : autoPubsubPath cfg blockstoreType blockstorePath = some path)
    (as boot : List ProcEvent) (d d₀ d₁ d' : Daemon) (p p' : Proc) (peerId : Option String)
    (hrun : Run (Steps cfg parseFloat (some path)) .new as d) (hsaves : .save .failed ∉ as)
    (hproc : d.proc = some p) (hbetween : p.changed = none)
    (hkilled : Steps cfg parseFloat (some path) d .killed d₀)
    (hstart : Steps cfg parseFloat (some path) d₀ (.start peerId) d₁)
    (hboot : Run (Steps cfg parseFloat (some path)) d₁ boot d') (hevents : ∀ a ∈ boot, IsBoot a)
    (hproc' : d'.proc = some p') (hdone : p'.sys.queue = []) :
    ∀ topic ∈ p.sys.autoJoined, topic ∈ p'.sys.autoJoined ∨ topic ∈ p'.sys.subscriptions.keys := by
  have hkept := kept_run rfl hrun hsaves
  cases daemon_cases hkilled
  cases daemon_cases hstart with
  | @start _ s _ hs =>
    obtain ⟨-, -, hqueue⟩ := init_moves hs
    have hbooting : Booting (loadTopics parseFloat (some path) d.file) s := by
      constructor
      · rw [hqueue]
        exact startUp_joins cfg peerId _
      · intro topic ht
        left
        rw [hqueue, Sys.startUp, if_pos ⟨autoPubsubPath_persists hpath, hmin⟩]
        exact List.mem_append_right _ (List.mem_map.mpr ⟨topic, ht, rfl⟩)
    obtain ⟨q, hq, hend⟩ := booting_run rfl hbooting hboot hevents
    obtain rfl := Option.some.inj (hproc'.symm.trans hq)
    intro topic ht
    have hloaded := hkept.autoJoined p hproc (by simp [hbetween]) topic ht
    rcases hend.due topic hloaded with hdue | hback
    · rw [hdone] at hdue
      contradiction
    · exact hback

def newsDaemon : Daemon := stateAfter newsStep .new newsJoined (by decide +kernel)

def newsKilled : Daemon := { newsDaemon with proc := none }

def newsRestarted : Daemon := (newsStep newsKilled (.start none)).get (by decide +kernel)

def newsBooted : Daemon := stateAfter newsStep newsRestarted [.run (.next (some 1))] (by decide +kernel)

theorem autoJoined_restored_news : ∃ p p', newsDaemon.proc = some p ∧ newsBooted.proc = some p' ∧
    "news" ∈ p.sys.autoJoined ∧
      ∀ topic ∈ p.sys.autoJoined, topic ∈ p'.sys.autoJoined ∨ topic ∈ p'.sys.subscriptions.keys := by
  let p := newsDaemon.proc.get (by decide +kernel)
  let p' := newsBooted.proc.get (by decide +kernel)
  have hproc : newsDaemon.proc = some p := (Option.some_get _).symm
  have hproc' : newsBooted.proc = some p' := (Option.some_get _).symm
  refine ⟨p, p', hproc, hproc', by decide +kernel, ?_⟩
  exact autoJoined_restored {} (fun _ => 0) (by decide) "filesystem" (some ".py_ipfs_lite/blocks") newsPath
    (by decide +kernel) newsJoined [.run (.next (some 1))] newsDaemon newsKilled newsRestarted newsBooted p p' none
    (run_stateAfter ..) (by simp [newsJoined]) hproc (by decide +kernel) rfl (Option.some_get _).symm
    (run_stateAfter ..) (fun a ha => by rw [List.mem_singleton.mp ha]; trivial) hproc' (by decide +kernel)

end IpfsLite.PubsubAutoJoin
