import IpfsLite.TrackerConserved

namespace IpfsLite.Tracker

open Runs Conns

variable {t u : Tracker} {n : ℕ}

def idlePeers (stats : Dict String PeerConnectionStats) : List (String × PeerConnectionStats) :=
  stats.entries.filter fun e => e.2.currentConnections = 0

theorem evictLoop_eq (len : ℕ) (es : List (String × PeerConnectionStats)) (gone : List String)
    (h : gone.length < len - 300) :
    evictLoop len es gone = gone ++
      ((es.filter fun e => e.2.currentConnections = 0).take (len - 300 - gone.length)).map Prod.fst := by
  induction es generalizing gone with
  | nil => simp [evictLoop]
  | cons e es ih =>
    rw [evictLoop]
    split_ifs with hidle hlast
    · have hone : len - 300 - gone.length = 1 := by omega
      rw [List.filter_cons_of_pos (by simpa using hidle), hone]
      rfl
    · have hlen : (gone ++ [e.1]).length = gone.length + 1 := List.length_append
      have hnext : len - 300 - gone.length = (len - 300 - (gone ++ [e.1]).length) + 1 := by omega
      rw [ih _ (by omega), List.filter_cons_of_pos (by simpa using hidle), hnext, List.take_succ_cons,
        List.map_cons, List.append_assoc, List.singleton_append]
    · rw [ih _ h, List.filter_cons_of_neg (by simpa using hidle)]

theorem toRemove_eq {stats : Dict String PeerConnectionStats} (h : 300 < stats.entries.length) :
    toRemove stats = ((idlePeers stats).take (stats.entries.length - 300)).map Prod.fst := by
  have hloop := evictLoop_eq stats.entries.length stats.entries [] (by simp; omega)
  rw [toRemove, hloop, List.nil_append, List.length_nil, Nat.sub_zero, idlePeers]

theorem dropConnection_peers (t : Tracker) (nowTs peerId : String) (connId : ObjId) (muxedId : Option ObjId) :
    (t.dropConnection nowTs peerId connId muxedId).peerStreamStats = t.peerStreamStats := by
  have hpop (t : Tracker) (k : ObjId) : (t.popMeta peerId k).peerStreamStats = t.peerStreamStats := by
    unfold popMeta
    split
    · split_ifs <;> rfl
    · rfl
  cases muxedId with
  | none => exact hpop t connId
  | some m => exact (hpop _ m).trans (hpop t connId)

theorem enforce_peers (h : 500 < t.stats.entries.length) (now : ℚ) :
    (t.enforceStatsCapacity now).peerStreamStats = t.peerStreamStats.eraseAll (toRemove t.stats) := by
  unfold enforceStatsCapacity
  rw [if_neg (by omega)]
  dsimp only
  split_ifs <;> rfl

theorem pruneLoop_spares {heap : Heap} {connId : ObjId} {muxedId : Option ObjId}
    {rest : List (String × StreamRecord)} (h : ∀ e ∈ rest, recordOnConn (e.2.obj heap) connId muxedId = false)
    (now : ℚ) (t : Tracker) : pruneLoop heap now connId muxedId rest t = (t, .ok ()) := by
  induction rest with
  | nil => rfl
  | cons e rest ih =>
    rw [List.forall_mem_cons] at h
    rw [pruneLoop, h.1, if_neg Bool.false_ne_true]
    exact ih h.2

/-! A crowd -/

def crowdMember (i : ℕ) : Conn := crowdConn (i + 10)

def crowdEntry (i : ℕ) : String × PeerConnectionStats :=
  ((crowdMember i).peer, ({ peerId := (crowdMember i).peer } : PeerConnectionStats).connected
    (crowdMember i).details "t0")

structure Crowded (t : Tracker) (n : ℕ) (u : Tracker) : Prop where
  stats : u.stats.entries = t.stats.entries ++ (List.range n).map crowdEntry
  streams : u.streams = t.streams
  peers : u.peerStreamStats = t.peerStreamStats

theorem Crowded.refl (t : Tracker) : Crowded t 0 t := ⟨by simp, rfl, rfl⟩

theorem Crowded.next (h : Crowded t n u) (hnew : ∀ i, (crowdMember i).peer ∉ t.stats.keys) :
    Crowded t (n + 1) (u.exec (.connected 0 "t0" (crowdMember n).obj)) := by
  have hnot : (crowdMember n).peer ∉ u.stats.keys := by
    intro hmem
    rw [Dict.keys, h.stats, List.map_append, List.mem_append] at hmem
    rcases hmem with hmem | hmem
    · exact hnew n hmem
    · rw [List.map_map] at hmem
      obtain ⟨i, hi, heq⟩ := List.mem_map.mp hmem
      have hpeer : crowdPeer (i + 10) = crowdPeer (n + 10) := by
        rw [← crowdConn_peer, ← crowdConn_peer]
        exact heq
      have hin := crowdPeer_inj hpeer
      have hlt := List.mem_range.mp hi
      omega
  have hstats : (u.exec (.connected 0 "t0" (crowdMember n).obj)).stats =
      u.stats.set (crowdMember n).peer (((u.stats.get? (crowdMember n).peer).getD
        { peerId := (crowdMember n).peer }).connected (crowdMember n).details "t0") := rfl
  constructor
  · rw [hstats, Dict.get?_eq_none.mpr hnot, Dict.entries_set_of_notMem hnot, h.stats, List.range_succ,
      List.map_append, List.append_assoc]
    rfl
  · exact h.streams
  · exact h.peers

/-- The first peer that is seen: it has a stream on a connection from before the tracker. -/
def earlyPeer : Conn := ⟨3, some 4, some "QmPeer", ⟨"outbound", "tcp", "Noise", "yamux", none⟩⟩

def early : List Call := [.openedStream 1 0 (sampleStream 10), .connected 2 "t2" earlyPeer.obj]

def earlyHeap : Heap := fun _ => some (sampleStream 10)

def earlyTracker : Tracker := early.foldl exec init

def earlyDropped (u : Tracker) : Tracker := u.seen.dropConnection "t3" "QmPeer" 3 (some 4)

def crowdCalls (n : ℕ) : List Call := (List.range n).map fun i => .connected 0 "t0" (crowdMember i).obj

theorem crowdCalls_crowded (hnew : ∀ i, (crowdMember i).peer ∉ t.stats.keys) (n : ℕ) :
    Crowded t n ((crowdCalls n).foldl exec t) := by
  induction n with
  | zero => exact .refl t
  | succ n ih =>
    rw [crowdCalls, List.range_succ, List.map_append, List.foldl_append]
    exact ih.next hnew

theorem crowdMember_ne (i : ℕ) : (crowdMember i).peer ≠ "QmPeer" := by
  intro h
  rw [crowdMember, crowdConn_peer, crowdPeer] at h
  have hlist := congrArg String.toList h
  rw [String.toList_ofList] at hlist
  simp [List.replicate_succ] at hlist

theorem earlyTracker_keys (i : ℕ) : (crowdMember i).peer ∉ earlyTracker.stats.keys := by
  have hkeys : earlyTracker.stats.keys = ["QmPeer"] := by decide +kernel
  rw [hkeys, List.mem_singleton]
  exact crowdMember_ne i

structure Capped (u : Tracker) : Prop where
  length : 2000 < (earlyDropped u).stats.entries.length
  kept : pruneLoop earlyHeap 3 3 (some 4) (earlyDropped u).streams.entries (earlyDropped u) = (earlyDropped u, .ok ())
  streams : (earlyDropped u).streams = earlyTracker.streams
  peers : (earlyDropped u).peerStreamStats = earlyTracker.peerStreamStats
  removed : toRemove (earlyDropped u).stats = ["QmPeer"]

theorem Crowded.dropped (h : Crowded earlyTracker n u) :
    ∃ s, s.currentConnections = 0 ∧
      (earlyDropped u).stats.entries = ("QmPeer", s) :: (List.range n).map crowdEntry := by
  obtain ⟨s, hs, hone⟩ : ∃ s, earlyTracker.stats.entries = [("QmPeer", s)] ∧ s.currentConnections = 1 :=
    ⟨_, rfl, rfl⟩
  have hentries : u.stats.entries = ("QmPeer", s) :: (List.range n).map crowdEntry := by
    rw [h.stats, hs]
    rfl
  have hget : u.stats.get? "QmPeer" = some s := by
    apply Dict.get?_eq_some.mpr
    rw [hentries]
    exact List.mem_cons_self
  have hdrop : (earlyDropped u).stats = u.stats.set "QmPeer" (s.disconnected "t3") := by
    have hstats := dropConnection_stats u.seen "t3" "QmPeer" 3 (some 4)
    have hseen : u.seen.stats = u.stats := rfl
    rw [earlyDropped, hstats, disconnectStats, hseen, hget]
  refine ⟨s.disconnected "t3", ?_, ?_⟩
  · change s.currentConnections - 1 = 0
    omega
  · rw [hdrop]
    change Dict.setEntries _ _ u.stats.entries = _
    rw [hentries, Dict.setEntries, if_pos rfl]

theorem Crowded.capped (h : Crowded earlyTracker n u) (hn : 2000 ≤ n) : Capped u := by
  obtain ⟨s, hidle, hentries⟩ := h.dropped
  have hlen : (earlyDropped u).stats.entries.length = n + 1 := by
    rw [hentries, List.length_cons, List.length_map, List.length_range]
  have hstreams : (earlyDropped u).streams = earlyTracker.streams :=
    (dropConnection_frame u.seen "t3" "QmPeer" 3 (some 4)).streams.trans h.streams
  have hbusy : ((List.range n).map crowdEntry).filter (fun e => e.2.currentConnections = 0) = [] := by
    rw [List.filter_eq_nil_iff]
    intro e he
    obtain ⟨i, -, rfl⟩ := List.mem_map.mp he
    exact Bool.false_ne_true
  constructor
  · omega
  · have hon : ∀ e ∈ earlyTracker.streams.entries, recordOnConn (e.2.obj earlyHeap) 3 (some 4) = false := by
      decide +kernel
    rw [hstreams]
    exact pruneLoop_spares hon 3 _
  · exact hstreams
  · exact (dropConnection_peers u.seen "t3" "QmPeer" 3 (some 4)).trans h.peers
  · rw [toRemove_eq (by omega), idlePeers, hentries, List.filter_cons_of_pos (by simpa using hidle), hbusy,
      List.take_of_length_le]
    · rfl
    · simp
      omega

theorem exists_capped :
    ∃ u, Run (fun t call u => u = t.exec call) init (early ++ crowdCalls 2000) u ∧ Capped u := by
  refine ⟨(crowdCalls 2000).foldl exec earlyTracker, ?_, ?_⟩
  · exact (run_foldl exec init early).trans (run_foldl exec earlyTracker (crowdCalls 2000))
  · exact (crowdCalls_crowded earlyTracker_keys 2000).capped (le_refl 2000)

theorem Capped.exec (h : Capped u) :
    (u.exec (.disconnected 3 "t3" earlyHeap earlyPeer.obj)).streams = earlyTracker.streams ∧
      (u.exec (.disconnected 3 "t3" earlyHeap earlyPeer.obj)).peerStreamStats =
        earlyTracker.peerStreamStats.eraseAll ["QmPeer"] := by
  have hlen := h.length
  have hcall : u.exec (.disconnected 3 "t3" earlyHeap earlyPeer.obj) =
      (earlyDropped u).enforceStatsCapacity 3 := by
    change ((earlyDropped u).pruneStreams 3 earlyHeap 3 (some 4)).1 = _
    simp only [pruneStreams, h.kept]
    exact if_pos hlen
  rw [hcall, enforce_streams, enforce_peers (by omega), h.removed, h.peers]
  exact ⟨h.streams, rfl⟩

end IpfsLite.Tracker
