import IpfsLite.TrackerSweep

namespace IpfsLite.Tracker

variable {t u : Tracker} {heap : Heap} {now : ℚ} {key : String} {r : StreamRecord}

theorem atPeer_get? (t : Tracker) (p : String) (f : PeerStreamStats → PeerStreamStats) (q : String) :
    (t.atPeer p f).peerStreamStats.get? q =
      if q = p then (t.peerStreamStats.get? q).map f else t.peerStreamStats.get? q := by
  unfold atPeer
  split
  · next hnone =>
    split_ifs with hq
    · rw [hq, hnone, Option.map_none]
    · rfl
  · next s hs =>
    dsimp only
    rw [Dict.get?_set]
    split_ifs with hq
    · rw [hq, hs, Option.map_some]
    · rfl

theorem withPeer_get? (t : Tracker) (p : String) (f : PeerStreamStats → PeerStreamStats) (q : String) :
    (t.withPeer p f).peerStreamStats.get? q =
      if q = p then some (f ((t.peerStreamStats.get? p).getD { peerId := p }))
      else t.peerStreamStats.get? q :=
  Dict.get?_set ..

theorem countProtocol_peers (t : Tracker) (r : StreamRecord) :
    (t.countProtocol r).1.peerStreamStats = t.peerStreamStats := by
  unfold countProtocol
  split
  · rfl
  · split_ifs
    · dsimp only
      split <;> rfl
    · rfl

/-- The protocol that a refresh finds for a record without one. -/
def learnedProtocol (heap : Heap) (r : StreamRecord) : Option String :=
  if r.protocol = none then (r.obj heap).bind streamProtocol else none

namespace PeerStreamStats

def learnDirection (s : PeerStreamStats) (heap : Heap) (r : StreamRecord) : PeerStreamStats :=
  if r.direction = .unknown then s.openDirection (refreshedDirection heap r) else s

def learnProtocol (s : PeerStreamStats) : Option String → PeerStreamStats
  | some p => s.moveProtocol none p
  | none => s

def refresh (s : PeerStreamStats) (heap : Heap) (r : StreamRecord) : PeerStreamStats :=
  (s.learnDirection heap r).learnProtocol (learnedProtocol heap r)

end PeerStreamStats

theorem refreshDirection_get? (t : Tracker) (heap : Heap) (r : StreamRecord) (q : String) :
    (t.refreshDirection r (r.obj heap)).1.peerStreamStats.get? q =
      if q = r.peerId then (t.peerStreamStats.get? q).map (·.learnDirection heap r)
      else t.peerStreamStats.get? q := by
  unfold refreshDirection PeerStreamStats.learnDirection
  dsimp only
  by_cases hu : r.direction = .unknown
  · have hnew : ((r.obj heap).map streamDirection).getD .unknown = refreshedDirection heap r := by
      rw [refreshedDirection, if_pos hu]
    rw [if_pos hu, hnew]
    simp only [if_pos hu]
    split
    · next hn =>
      rw [hn]
      cases t.peerStreamStats.get? q <;> simp [PeerStreamStats.openDirection]
    · next hnone _ =>
      split_ifs with hq
      · rw [hq, hnone]
        rfl
      · rfl
    · rw [peers_countOpened, atPeer_get?]
  · rw [if_neg hu]
    simp only [if_neg hu]
    cases t.peerStreamStats.get? q <;> simp

theorem refreshed_peers (t : Tracker) (heap : Heap) (key : String) (r : StreamRecord) (q : String) :
    (t.refreshed heap key r).peerStreamStats.get? q =
      if q = r.peerId then (t.peerStreamStats.get? q).map (·.refresh heap r)
      else t.peerStreamStats.get? q := by
  have hdir := refreshDirection_get? t heap
    { r with protocol := r.protocol.or ((r.obj heap).bind streamProtocol) } q
  change (t.refreshDirection { r with protocol := r.protocol.or ((r.obj heap).bind streamProtocol) }
    (r.obj heap)).1.peerStreamStats.get? q = if q = r.peerId then
      (t.peerStreamStats.get? q).map (·.learnDirection heap r) else t.peerStreamStats.get? q at hdir
  change (t.refreshRecordMetadata heap r).1.peerStreamStats.get? q = _
  unfold refreshRecordMetadata PeerStreamStats.refresh learnedProtocol
  dsimp only
  rw [countProtocol_peers]
  cases hp : r.protocol with
  | some p =>
    rw [hp] at hdir
    simpa [PeerStreamStats.learnProtocol] using hdir
  | none =>
    rw [hp] at hdir
    rw [Option.none_or] at hdir ⊢
    cases hlearned : (r.obj heap).bind streamProtocol with
    | none =>
      rw [hlearned] at hdir
      simpa [PeerStreamStats.learnProtocol] using hdir
    | some p =>
      rw [hlearned] at hdir
      dsimp only
      rw [if_pos (by simp), atPeer_get?, hdir, if_pos rfl]
      by_cases hq : q = r.peerId
      · simp only [if_pos hq]
        cases t.peerStreamStats.get? q <;> rfl
      · simp only [if_neg hq]

theorem finalizeRecord_peers? (hread : Readable heap r) (t : Tracker) (now : ℚ) (key : String) :
    ∃ reset, ∀ q, (t.finalizeRecord heap key r now).1.peerStreamStats.get? q =
      if q = r.peerId then
        some (((t.peerStreamStats.get? r.peerId).getD { peerId := r.peerId }).closed r.direction reset)
      else t.peerStreamStats.get? q := by
  obtain ⟨reset, hreset⟩ := hread
  refine ⟨r.wasReset || reset, fun q => ?_⟩
  have hwith := withPeer_get? t r.peerId (·.closed r.direction (r.wasReset || reset)) q
  simp only [finalizeRecord, hreset]
  rw [← hwith]
  unfold countStreamClosed countClosed
  cases r.direction <;> dsimp only <;> split_ifs <;> rfl

def refreshedPeer (t : Tracker) (heap : Heap) (r : StreamRecord) : PeerStreamStats :=
  ((t.peerStreamStats.get? r.peerId).map (·.refresh heap r)).getD { peerId := r.peerId }

theorem refreshed_getD (t : Tracker) (heap : Heap) (key : String) (r : StreamRecord) :
    ((t.refreshAt heap key r).1.peerStreamStats.get? r.peerId).getD { peerId := r.peerId } =
      t.refreshedPeer heap r := by
  have hrefreshed := refreshed_peers t heap key r r.peerId
  rw [refreshed] at hrefreshed
  rw [hrefreshed, if_pos rfl, refreshedPeer]

theorem reconciled_peers (hread : Readable heap r) (t : Tracker) (now : ℚ) (key : String) :
    ∃ d reset, ∀ q, (t.reconciled heap now key r).peerStreamStats.get? q =
      if q = r.peerId then some ((t.refreshedPeer heap r).closed d reset) else t.peerStreamStats.get? q := by
  obtain ⟨hsame, hobj, -⟩ := refreshAt_same t heap key r
  have hread' : Readable heap (t.refreshAt heap key r).2 := by
    rw [Readable, hobj]
    exact hread
  obtain ⟨reset, hfin⟩ := finalizeRecord_peers? hread' (t.refreshAt heap key r).1 now key
  refine ⟨(t.refreshAt heap key r).2.direction, reset, fun q => (hfin q).trans ?_⟩
  rw [hsame.2.1, refreshed_getD]
  split_ifs with hq
  · rfl
  · exact (refreshed_peers t heap key r q).trans (if_neg hq)

theorem flagged_peers (t : Tracker) (heap : Heap) (key : String) (r : StreamRecord) (q : String) :
    (t.flagged heap key r).1.peerStreamStats.get? q =
      if q = r.peerId then some (t.refreshedPeer heap r).suspectLeak else t.peerStreamStats.get? q := by
  have hsame := (refreshAt_same t heap key r).1
  have hwith := withPeer_get? (t.refreshAt heap key r).1 (t.refreshAt heap key r).2.peerId (·.suspectLeak) q
  change (t.flagged heap key r).1.peerStreamStats.get? q = _ at hwith
  rw [hwith, hsame.2.1, refreshed_getD]
  split_ifs with hq
  · rfl
  · exact (refreshed_peers t heap key r q).trans (if_neg hq)

end IpfsLite.Tracker
