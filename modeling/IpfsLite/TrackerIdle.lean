import IpfsLite.TrackerCapacity
import IpfsLite.TrackerSweep

/-! The peers without open connections over runs: whether they hold records, and the order in which they stand. -/

namespace IpfsLite.Tracker.Counting

open Runs Conns

def HasRecord (t : Tracker) (p : String) : Prop := ∃ e ∈ t.streams.entries, e.2.peerId = p

/-- The times are texts of one length and one zone, in which later ones are greater. -/
def NotLater (a b : Option String) : Prop := ∀ x ∈ a, ∀ y ∈ b, x ≤ y

structure IdleInOrder (t : Tracker) : Prop where
  streamless : ∀ e ∈ idlePeers t.stats, ¬HasRecord t e.1
  ordered : (idlePeers t.stats).Pairwise fun e e' => NotLater e.2.lastDisconnectedAt e'.2.lastDisconnectedAt

/-- At the time `nowTs`, the idle peers seen before `p` were disconnected no later and those seen after it no
earlier. -/
def LastInTurn (t : Tracker) (p nowTs : String) : Prop :=
  ∀ pre s post, t.stats.entries = pre ++ (p, s) :: post →
    (∀ e ∈ pre, e.2.currentConnections = 0 → NotLater e.2.lastDisconnectedAt (some nowTs)) ∧
      ∀ e ∈ post, e.2.currentConnections = 0 → NotLater (some nowTs) e.2.lastDisconnectedAt

/-- A stream is opened while its peer has a connection. The last connection of a peer closes in turn, with
all records of the peer on it, and those on it can be read. -/
def Orderly (n : Net) : Event → Prop
  | .openedStream _ _ stream => orUnknown (streamPeerId stream) ∈ n.live.map Prod.snd
  | .disconnected c _ nowTs heap => c.peer ∉ (n.live.erase (key c)).map Prod.snd →
      LastInTurn n.tracker c.peer nowTs ∧ ∀ e ∈ n.tracker.streams.entries,
        (e.2.peerId = c.peer → recordOnConn (e.2.obj heap) c.id c.muxed = true) ∧
          (recordOnConn (e.2.obj heap) c.id c.muxed = true → Readable heap e.2)
  | _ => True

structure Settled (n : Net) : Prop where
  conserved : Conserved n
  attached : ∀ p, HasRecord n.tracker p → p ∈ n.live.map Prod.snd
  ordered : (idlePeers n.tracker.stats).Pairwise fun e e' =>
    NotLater e.2.lastDisconnectedAt e'.2.lastDisconnectedAt

variable {t u : Tracker} {n m : Net} {live : List (ObjId × String)} {p : String} {heap : Heap} {now : ℚ}
  {nowTs : String}

theorem hasRecord_iff : HasRecord t p ↔ 0 < t.liveCount p := by
  rw [Nat.pos_iff_ne_zero, ne_eq, liveCount_eq_zero]
  push Not
  rfl

theorem hasRecord_congr (h : u.streams = t.streams) : HasRecord u p ↔ HasRecord t p := by
  rw [HasRecord, h, HasRecord]

theorem mem_idlePeers {stats : Dict String PeerConnectionStats} {s : PeerConnectionStats} :
    (p, s) ∈ idlePeers stats ↔ stats.get? p = some s ∧ s.currentConnections = 0 := by
  rw [idlePeers, List.mem_filter, decide_eq_true_eq, Dict.get?_eq_some]

theorem idle_iff (ht : Conserved ⟨t, live⟩) {s : PeerConnectionStats} (hs : t.stats.get? p = some s) :
    s.currentConnections = 0 ↔ p ∉ live.map Prod.snd := by
  have hcount := ht.counts p
  rw [currentConnections, hs, Option.map_some, Option.getD_some] at hcount
  rw [hcount]
  exact List.count_eq_zero

theorem Settled.idleInOrder (h : Settled n) : IdleInOrder n.tracker := by
  refine ⟨fun e he hrecord => ?_, h.ordered⟩
  obtain ⟨hget, hidle⟩ := mem_idlePeers.mp he
  exact (idle_iff h.conserved hget).mp hidle (h.attached e.1 hrecord)

/-! The calls that open no stream leave no peer with more records. -/

theorem finalizeRecord_fewer {k : String} {r : StreamRecord}
    (h : HasRecord (t.finalizeRecord heap k r now).1 p) : HasRecord t p := by
  obtain ⟨e, he, hp⟩ := h
  refine ⟨e, ?_, hp⟩
  cases hread : readReset (r.obj heap) with
  | error err => simpa [finalizeRecord, hread] using he
  | ok reset =>
    have hok := (finalizeRecord_ok_iff heap now t k r).mpr ⟨reset, hread⟩
    rw [finalizeRecord_streams hok] at he
    exact List.mem_of_mem_filter he

theorem touched_hasRecord {k : String} (h : Touched k t u) : HasRecord u p ↔ HasRecord t p := by
  rw [hasRecord_iff, hasRecord_iff, h.lives p]

theorem pruneLoop_fewer {connId : ObjId} {muxedId : Option ObjId} {rest : List (String × StreamRecord)}
    (h : HasRecord (pruneLoop heap now connId muxedId rest t).1 p) : HasRecord t p :=
  pruneLoop_preserves (P := fun u => HasRecord u p → HasRecord t p)
    (fun _ _ _ hu hfin => hu (finalizeRecord_fewer hfin)) connId muxedId rest id h

theorem leakLoop_fewer {threshold : ℚ} {table : LiveTable}
    (h : HasRecord (leakLoop heap now threshold table t.streams.entries t []).1 p) : HasRecord t p :=
  (ahead_entries t).leakLoop (P := fun u => HasRecord u p → HasRecord t p)
    (fun htouch hu hrecord => hu ((touched_hasRecord htouch).mp hrecord))
    (fun _ _ _ _ hu hfin => hu (finalizeRecord_fewer hfin)) threshold table id h

theorem refreshLoop_fewer (h : HasRecord (refreshLoop heap t.streams.entries t) p) : HasRecord t p :=
  (ahead_entries t).refreshLoop (P := fun u => HasRecord u p → HasRecord t p)
    (fun htouch hu hrecord => hu ((touched_hasRecord htouch).mp hrecord)) id h

theorem closeRecord_streams (t : Tracker) (now : ℚ) (stream : StreamObj) (r : StreamRecord) :
    (t.closeRecord now stream r).1.streams = t.streams := by
  cases hread : readReset (some stream) with
  | error e => rw [closeRecord_error hread]
  | ok reset =>
    obtain ⟨r', d, -, hclose⟩ := closeRecord_ok now hread t r
    rw [hclose.streams, countStreamClosed_streams]

theorem closedStream_fewer {stream : StreamObj} (h : HasRecord (t.closedStream now heap stream).1 p) :
    HasRecord t p := by
  cases hget : t.streams.get? (streamKey stream) with
  | some r =>
    obtain ⟨e, he, hp⟩ := h
    rw [closedStream_record hget, closeRecord_streams,
      (refreshRecordMetadata_frame { t.seen with streams := t.streams.erase (streamKey stream) } heap r).1.streams] at he
    exact ⟨e, List.mem_of_mem_filter he, hp⟩
  | none =>
    have hseen : t.seen.streams.get? (streamKey stream) = none := hget
    have hsame : (t.closedStream now heap stream).1.streams = t.streams := by
      unfold closedStream
      dsimp only
      split_ifs
      · rfl
      · rw [closeRecord_streams, takeRecord, hseen]
        rfl
    exact (hasRecord_congr hsame).mp h

theorem openedStream_records {ref : StreamRef} {stream : StreamObj}
    (h : HasRecord (t.openedStream now ref stream).1 p) :
    HasRecord t p ∨ p = orUnknown (streamPeerId stream) := by
  obtain ⟨r, hr, hstreams, -⟩ := openedStream_effect t now ref stream
  obtain ⟨⟨k, r'⟩, he, rfl⟩ := h
  rw [hstreams, ← Dict.get?_eq_some, Dict.get?_set] at he
  split_ifs at he with hk
  · obtain rfl := Option.some.inj he
    exact .inr hr
  · exact .inl ⟨(k, r'), Dict.get?_eq_some.mp he, rfl⟩

/-! What a step keeps. -/

theorem Settled.congr (h : Settled ⟨t, live⟩) (hconns : SameConns t u) (hfewer : ∀ p, HasRecord u p → HasRecord t p) :
    Settled ⟨u, live⟩ := by
  refine ⟨h.conserved.congr hconns, fun p hp => h.attached p (hfewer p hp), ?_⟩
  dsimp only
  rw [hconns.stats]
  exact h.ordered

theorem Settled.enforce (h : Settled ⟨t, live⟩) (now : ℚ) : Settled ⟨t.enforceStatsCapacity now, live⟩ := by
  refine ⟨enforce_conserved now h.conserved, fun p hp => ?_, ?_⟩
  · exact h.attached p ((hasRecord_congr (enforce_streams t now)).mp hp)
  · dsimp only
    rcases enforce_stats t now with hstats | hstats
    · rw [hstats]
      exact h.ordered
    · rw [hstats]
      exact h.ordered.sublist ((Dict.eraseAll_sublist _ _).filter _)

theorem Settled.connected (h : Settled n) (c : Conn) (now : ℚ) (nowTs : String) :
    Settled ⟨n.tracker.exec (.connected now nowTs c.obj), key c :: n.live⟩ := by
  refine ⟨connected_conserved c now nowTs h.conserved, fun p hp => ?_, ?_⟩
  · exact List.mem_cons_of_mem _ (h.attached p ((hasRecord_congr (connected_streams n.tracker c now nowTs)).mp hp))
  · refine h.ordered.sublist (Dict.filter_set_sublist n.tracker.stats ?_)
    simp [PeerConnectionStats.connected]

theorem LastInTurn.disconnectStats (h : LastInTurn t p nowTs)
    (hordered : (idlePeers t.stats).Pairwise fun e e' => NotLater e.2.lastDisconnectedAt e'.2.lastDisconnectedAt) :
    (idlePeers (Tracker.disconnectStats t.stats p nowTs)).Pairwise fun e e' =>
      NotLater e.2.lastDisconnectedAt e'.2.lastDisconnectedAt := by
  rw [Tracker.disconnectStats]
  cases hget : t.stats.get? p with
  | none => exact hordered
  | some s =>
    obtain ⟨pre, post, hsplit⟩ := List.append_of_mem (Dict.get?_eq_some.mp hget)
    obtain ⟨hbefore, hafter⟩ := h pre s post hsplit
    have hrest : ((pre ++ post).filter fun e => e.2.currentConnections = 0).Pairwise fun e e' =>
        NotLater e.2.lastDisconnectedAt e'.2.lastDisconnectedAt := by
      refine hordered.sublist (List.Sublist.filter _ ?_)
      rw [hsplit]
      exact (List.sublist_cons_self _ _).append_left _
    simp only [List.filter_append] at hrest
    obtain ⟨hpre, hpost, hacross⟩ := List.pairwise_append.mp hrest
    dsimp only
    rw [idlePeers, Dict.entries_set_split hsplit, List.filter_append, List.pairwise_append, List.filter_cons]
    split_ifs
    · refine ⟨hpre, List.pairwise_cons.mpr ⟨fun e he => ?_, hpost⟩, fun e he e' he' => ?_⟩
      · obtain ⟨hmem, hidle⟩ := List.mem_filter.mp he
        exact hafter e hmem (of_decide_eq_true hidle)
      · rcases List.mem_cons.mp he' with rfl | he'
        · obtain ⟨hmem, hidle⟩ := List.mem_filter.mp he
          exact hbefore e hmem (of_decide_eq_true hidle)
        · exact hacross e he e' he'
    · exact ⟨hpre, hpost, hacross⟩

theorem conserved_pruned {c : Conn} (hn : Conserved n) (hc : key c ∈ n.live) (now : ℚ) (nowTs : String) (heap : Heap) :
    Conserved ⟨(pruneLoop heap now c.id c.muxed
      (n.tracker.seen.dropConnection nowTs c.peer c.id c.muxed).streams.entries
      (n.tracker.seen.dropConnection nowTs c.peer c.id c.muxed)).1, n.live.erase (key c)⟩ := by
  have hseen : Conserved ⟨n.tracker.seen, n.live⟩ := ⟨hn.counts, hn.events⟩
  have hdrop := dropConnection_conserved hseen hc c.muxed nowTs
  exact hdrop.congr (SameConns.pruneLoop now heap c.id c.muxed _ _)

theorem live_erase {c : Conn} (hp : p ∈ live.map Prod.snd) (hne : p ≠ c.peer) :
    p ∈ (live.erase (key c)).map Prod.snd := by
  obtain ⟨l, hl, rfl⟩ := List.mem_map.mp hp
  have hlc : l ≠ key c := by
    rintro rfl
    exact hne rfl
  exact List.mem_map_of_mem ((List.mem_erase_of_ne hlc).mpr hl)

theorem Settled.pruned {c : Conn} (h : Settled n) (hc : key c ∈ n.live)
    (hok : Orderly n (.disconnected c now nowTs heap)) :
    Settled ⟨(pruneLoop heap now c.id c.muxed (n.tracker.seen.dropConnection nowTs c.peer c.id c.muxed).streams.entries
      (n.tracker.seen.dropConnection nowTs c.peer c.id c.muxed)).1, n.live.erase (key c)⟩ := by
  have hconserved := conserved_pruned h.conserved hc now nowTs heap
  have hstreams : (n.tracker.seen.dropConnection nowTs c.peer c.id c.muxed).streams = n.tracker.streams :=
    (dropConnection_frame n.tracker.seen nowTs c.peer c.id c.muxed).streams
  have hstats : (n.tracker.seen.dropConnection nowTs c.peer c.id c.muxed).stats =
      disconnectStats n.tracker.stats c.peer nowTs := dropConnection_stats n.tracker.seen nowTs c.peer c.id c.muxed
  have hconns := SameConns.pruneLoop now heap c.id c.muxed
    (n.tracker.seen.dropConnection nowTs c.peer c.id c.muxed).streams.entries
    (n.tracker.seen.dropConnection nowTs c.peer c.id c.muxed)
  by_cases hlast : c.peer ∈ (n.live.erase (key c)).map Prod.snd
  · refine ⟨hconserved, fun p hp => ?_, ?_⟩
    · by_cases hpc : p = c.peer
      · rw [hpc]
        exact hlast
      · exact live_erase (h.attached p ((hasRecord_congr hstreams).mp (pruneLoop_fewer hp))) hpc
    · dsimp only
      rw [hconns.stats, hstats, disconnectStats]
      cases hget : n.tracker.stats.get? c.peer with
      | none => exact h.ordered
      | some s =>
        refine h.ordered.sublist (Dict.filter_set_sublist n.tracker.stats ?_)
        have hstill := idle_iff (p := c.peer) hconserved (s := s.disconnected nowTs) (by
          rw [hconns.stats, hstats, disconnectStats, hget, Dict.get?_set, if_pos rfl])
        simpa using fun hidle => hstill.mp hidle hlast
  · obtain ⟨hturn, hrecords⟩ := hok hlast
    have hpruned := (pruneLoop_ok_iff heap now c.id c.muxed n.tracker.streams.entries
      (n.tracker.seen.dropConnection nowTs c.peer c.id c.muxed)).mpr fun e he => (hrecords e he).2
    rw [hstreams] at hconns ⊢
    rw [hstreams] at hconserved
    refine ⟨hconserved, fun p hp => ?_, ?_⟩
    · by_cases hpc : p = c.peer
      · -- the records of the peer were all on the connection, and the loop has taken them
        obtain ⟨⟨k, r⟩, he, hpeer⟩ := hp
        rw [hpc] at hpeer
        rw [pruneLoop_streams c.id c.muxed hpruned, hstreams, ← Dict.get?_eq_some, Dict.get?_eraseAll] at he
        split_ifs at he with hgone
        have hmem := Dict.get?_eq_some.mp he
        refine absurd (List.mem_map_of_mem (f := Prod.fst) (List.mem_filter.mpr ⟨hmem, ?_⟩)) hgone
        exact (hrecords (k, r) hmem).1 hpeer
      · exact live_erase (h.attached p ((hasRecord_congr hstreams).mp (pruneLoop_fewer hp))) hpc
    · dsimp only
      rw [hconns.stats, hstats]
      exact hturn.disconnectStats h.ordered

theorem step_settled {e : Event} (h : Settled n) (hs : step n e = some m) (hok : Orderly n e) : Settled m := by
  cases e with
  | connected c now nowTs =>
    obtain rfl := Option.some.inj hs
    exact h.connected c now nowTs
  | disconnected c now nowTs heap =>
    rw [step] at hs
    split_ifs at hs with hc
    obtain rfl := Option.some.inj hs
    have hpruned := h.pruned hc hok
    change Settled ⟨((n.tracker.seen.dropConnection nowTs c.peer c.id c.muxed).pruneStreams now heap c.id
      c.muxed).1, n.live.erase (key c)⟩
    unfold pruneStreams
    split
    · next u e herr =>
      rw [herr] at hpruned
      exact hpruned
    · next u _ hdone =>
      rw [hdone] at hpruned
      dsimp only
      split_ifs
      · exact hpruned.enforce now
      · exact hpruned
  | openedStream now ref stream =>
    obtain rfl := Option.some.inj hs
    have hconns := SameConns.openedStream n.tracker now ref stream
    refine ⟨h.conserved.congr hconns, fun p hp => ?_, ?_⟩
    · rcases openedStream_records hp with hp | rfl
      · exact h.attached p hp
      · exact hok
    · have hordered := h.ordered
      rw [← hconns.stats] at hordered
      exact hordered
  | closedStream now heap stream =>
    obtain rfl := Option.some.inj hs
    exact h.congr (SameConns.closedStream n.tracker now heap stream) fun _ => closedStream_fewer
  | checkForLeaks now threshold heap table =>
    obtain rfl := Option.some.inj hs
    exact h.congr (SameConns.leakLoop heap now threshold _ _ n.tracker []) fun _ => leakLoop_fewer
  | streamStatsSnapshot heap =>
    obtain rfl := Option.some.inj hs
    exact h.congr (SameConns.refreshLoop heap _ n.tracker) fun _ => refreshLoop_fewer

theorem init_settled : Settled .init := by
  refine ⟨init_conserved, fun p hp => ?_, .nil⟩
  obtain ⟨e, he, -⟩ := hp
  exact absurd he List.not_mem_nil

theorem run_settled {events : List Event}
    (h : Run (fun n e m => step n e = some m ∧ Orderly n e) .init events n) : Settled n :=
  h.invariant (P := Settled) (fun _ _ _ hn hs => step_settled hn hs.1 hs.2) init_settled

end IpfsLite.Tracker.Counting
