import IpfsLite.TrackerAccounting

namespace IpfsLite.Tracker

structure Outcome where
  streams : Dict String StreamRecord
  peerStreamStats : Dict String PeerStreamStats
  totalStreamsByProtocol : Dict String ℕ
  totalStreamsByProtocolOutbound : Dict String ℕ
  totalStreamsByProtocolInbound : Dict String ℕ
  totalOutboundOpened : ℕ
  totalInboundOpened : ℕ
  totalOutboundClosed : ℕ
  totalInboundClosed : ℕ
  peerLifetime : Dict String (ℚ × ℕ)
  finalizedKeys : Dict String ℚ
  closedTotal : ℕ

def outcome (t : Tracker) : Outcome where
  streams := t.streams
  peerStreamStats := t.peerStreamStats
  totalStreamsByProtocol := t.totalStreamsByProtocol
  totalStreamsByProtocolOutbound := t.totalStreamsByProtocolOutbound
  totalStreamsByProtocolInbound := t.totalStreamsByProtocolInbound
  totalOutboundOpened := t.totalOutboundOpened
  totalInboundOpened := t.totalInboundOpened
  totalOutboundClosed := t.totalOutboundClosed
  totalInboundClosed := t.totalInboundClosed
  peerLifetime := t.peerLifetime
  finalizedKeys := t.finalizedKeys
  closedTotal := t.counters.closed

variable {t u : Tracker} {heap : Heap} {now : ℚ}

theorem atPeer_closed (t : Tracker) (p : String) (f : PeerStreamStats → PeerStreamStats) :
    (t.atPeer p f).counters.closed = t.counters.closed := by
  unfold atPeer
  split <;> rfl

theorem countOpened_closed (t : Tracker) (d : Direction) :
    (t.countOpened d).counters.closed = t.counters.closed := by
  cases d <;> rfl

theorem refreshDirection_closed (t : Tracker) (r : StreamRecord) (obj : Option StreamObj) :
    (t.refreshDirection r obj).1.counters.closed = t.counters.closed := by
  unfold refreshDirection
  dsimp only
  split_ifs
  · split
    · rfl
    · rfl
    · rw [countOpened_closed, atPeer_closed]
  · rfl

theorem countProtocol_closed (t : Tracker) (r : StreamRecord) :
    (t.countProtocol r).1.counters.closed = t.counters.closed := by
  unfold countProtocol
  split
  · rfl
  · split_ifs
    · dsimp only
      split <;> rfl
    · rfl

theorem refreshRecordMetadata_closed (t : Tracker) (heap : Heap) (r : StreamRecord) :
    (t.refreshRecordMetadata heap r).1.counters.closed = t.counters.closed := by
  unfold refreshRecordMetadata
  dsimp only
  rw [countProtocol_closed]
  split
  · split_ifs
    · rw [atPeer_closed, refreshDirection_closed]
    · rw [refreshDirection_closed]
  · rw [refreshDirection_closed]

theorem countStreamClosed_closed (t : Tracker) (r : StreamRecord) (key : String) (now : ℚ)
    (duration : Option ℚ) : (t.countStreamClosed r key now duration).counters.closed = t.counters.closed := by
  cases duration <;> cases hd : r.direction <;>
    simp [countStreamClosed, countClosed, hd, withPeer, recordLifetime]

variable (heap now) in
theorem finalizeRecord_closed (t : Tracker) (key : String) (r : StreamRecord) :
    (t.finalizeRecord heap key r now).1.counters.closed = t.counters.closed := by
  unfold finalizeRecord
  split
  · rfl
  · rw [countStreamClosed_closed]

theorem leakLoop_closed (threshold : ℚ) (live : LiveTable) (rest : List (String × StreamRecord))
    (t : Tracker) (leaked : List StreamRecord) :
    (leakLoop heap now threshold live rest t leaked).1.counters.closed = t.counters.closed := by
  apply leakLoop_preserves (P := fun u => u.counters.closed = t.counters.closed)
  · exact fun u _ r h => (refreshRecordMetadata_closed u heap r).trans h
  · exact fun u key r h => (finalizeRecord_closed heap now u key r).trans h
  · exact fun u key r h => h
  · rfl

variable (heap now) in
theorem pruneLoop_closed (connId : ObjId) (muxedId : Option ObjId) (rest : List (String × StreamRecord))
    (t : Tracker) : (pruneLoop heap now connId muxedId rest t).1.counters.closed = t.counters.closed := by
  apply pruneLoop_preserves (P := fun u => u.counters.closed = t.counters.closed)
  · exact fun u key r h => (finalizeRecord_closed heap now u key r).trans h
  · rfl

theorem enforce_closed (t : Tracker) (now : ℚ) :
    (t.enforceStatsCapacity now).counters.closed = t.counters.closed := by
  unfold enforceStatsCapacity
  dsimp only
  split_ifs <;> rfl

theorem disconnected_closed (t : Tracker) (nowTs : String) (conn : ConnObj) :
    (t.disconnected now nowTs heap conn).1.counters.closed = t.counters.closed := by
  have hpop : ∀ (v : Tracker) p k, (v.popMeta p k).counters.closed = v.counters.closed := by
    intro v p k
    unfold popMeta
    split
    · split_ifs <;> rfl
    · rfl
  have hdrop : ∀ (v : Tracker) p m, (v.dropConnection nowTs p conn.id m).counters.closed =
      v.counters.closed := by
    intro v p m
    cases m <;> simp [dropConnection, hpop]
  have hprune : ∀ (v : Tracker) m, (v.pruneStreams now heap conn.id m).1.counters.closed =
      v.counters.closed := by
    intro v m
    have hloop := pruneLoop_closed heap now conn.id m v.streams.entries v
    unfold pruneStreams
    split
    · next w _ hres =>
      rw [hres] at hloop
      exact hloop
    · next w _ hres =>
      rw [hres] at hloop
      dsimp only
      split_ifs
      · rw [enforce_closed, hloop]
      · exact hloop
  unfold disconnected
  dsimp only
  split
  · rfl
  · rfl
  · rw [hprune, hdrop]
    rfl

theorem refreshLoop_closed (rest : List (String × StreamRecord)) (t : Tracker) :
    (refreshLoop heap rest t).counters.closed = t.counters.closed := by
  induction rest generalizing t with
  | nil => rfl
  | cons e rest ih =>
    have href : (t.refreshAt heap e.1 e.2).1.counters.closed = t.counters.closed :=
      refreshRecordMetadata_closed t heap e.2
    rw [refreshLoop, ih, href]

theorem openedStream_closed (t : Tracker) (ref : StreamRef) (stream : StreamObj) :
    (t.openedStream now ref stream).1.counters.closed = t.counters.closed := by
  have hserve : ∀ (v : Tracker) m p, (v.serveStream m p).counters.closed = v.counters.closed := by
    intro v m p
    unfold serveStream
    split <;> rfl
  unfold openedStream
  dsimp only
  split
  · rw [countOpened_closed]
    rfl
  · rw [countOpened_closed]
    rfl
  · rw [hserve, countOpened_closed]
    rfl

theorem connected_closed (t : Tracker) (nowTs : String) (conn : ConnObj) :
    (t.connected now nowTs conn).1.counters.closed = t.counters.closed := by
  unfold connected
  dsimp only
  split
  · rfl
  · split <;> rfl

theorem exec_closed (t : Tracker) (call : Call) (h : ∀ now heap stream, call ≠ .closedStream now heap stream) :
    (t.exec call).counters.closed = t.counters.closed := by
  cases call with
  | openedStream now ref stream => exact openedStream_closed t ref stream
  | closedStream now heap stream => exact absurd rfl (h now heap stream)
  | connected now nowTs conn => exact connected_closed t nowTs conn
  | disconnected now nowTs heap conn => exact disconnected_closed t nowTs conn
  | checkForLeaks now threshold heap live => exact leakLoop_closed ..
  | streamStatsSnapshot heap => exact refreshLoop_closed _ t

def withTable (t : Tracker) (x : Dict String StreamRecord) : Tracker := { t.seen with streams := x }

theorem atPeer_withTable (t : Tracker) (x : Dict String StreamRecord) (p : String)
    (f : PeerStreamStats → PeerStreamStats) : (t.withTable x).atPeer p f = (t.atPeer p f).withTable x := by
  cases h : t.peerStreamStats.get? p <;> simp [atPeer, withTable, seen, h]

theorem countOpened_withTable (t : Tracker) (x : Dict String StreamRecord) (d : Direction) :
    (t.withTable x).countOpened d = (t.countOpened d).withTable x := by
  cases d <;> rfl

theorem refreshDirection_withTable (t : Tracker) (x : Dict String StreamRecord) (r : StreamRecord)
    (obj : Option StreamObj) :
    (t.withTable x).refreshDirection r obj =
      ((t.refreshDirection r obj).1.withTable x, (t.refreshDirection r obj).2) := by
  have hget : (t.withTable x).peerStreamStats = t.peerStreamStats := rfl
  unfold refreshDirection
  dsimp only
  rw [hget]
  split_ifs
  · split
    · rfl
    · rfl
    · rw [atPeer_withTable, countOpened_withTable]
  · rfl

theorem countProtocol_withTable (t : Tracker) (x : Dict String StreamRecord) (r : StreamRecord) :
    (t.withTable x).countProtocol r = ((t.countProtocol r).1.withTable x, (t.countProtocol r).2) := by
  unfold countProtocol
  split
  · rfl
  · split_ifs
    · cases r.direction <;> rfl
    · rfl

theorem refreshRecordMetadata_withTable (t : Tracker) (x : Dict String StreamRecord) (heap : Heap)
    (r : StreamRecord) :
    (t.withTable x).refreshRecordMetadata heap r =
      ((t.refreshRecordMetadata heap r).1.withTable x, (t.refreshRecordMetadata heap r).2) := by
  unfold refreshRecordMetadata
  dsimp only
  rw [refreshDirection_withTable]
  split
  · split_ifs
    · rw [atPeer_withTable, countProtocol_withTable]
    · rw [countProtocol_withTable]
  · rw [countProtocol_withTable]

theorem countStreamClosed_withTable (t : Tracker) (x : Dict String StreamRecord) (r : StreamRecord)
    (key : String) (now : ℚ) (duration : Option ℚ) :
    (t.withTable x).countStreamClosed r key now duration =
      (t.countStreamClosed r key now duration).withTable x := by
  cases duration <;> cases hd : r.direction <;>
    simp [countStreamClosed, countClosed, hd, withPeer, recordLifetime, withTable, seen]

theorem outcome_withTable {x : Dict String StreamRecord} (h : t.streams = x) :
    (t.withTable x).outcome = t.outcome := by
  subst h
  rfl

def Outcome.countClosed (o : Outcome) : Outcome := { o with closedTotal := o.closedTotal + 1 }

def lifetime (r : StreamRecord) (now : ℚ) : Option ℚ :=
  if 0 < r.openedAt then some (now - r.openedAt) else none

theorem closeRecord_outcome {stream : StreamObj} {reset : Bool}
    (hreset : readReset (some stream) = .ok reset) (t : Tracker) (r : StreamRecord) :
    (t.closeRecord now stream r).1.outcome =
      (t.countStreamClosed { r with wasReset := r.wasReset || reset } (streamKey stream) now
        (lifetime r now)).outcome.countClosed := by
  simp only [closeRecord, hreset]
  rw [apply_ite Prod.fst, ite_self]
  rfl

variable (now) in
theorem finalizeRecord_eq (key : String) {r : StreamRecord} {reset : Bool}
    (hreset : readReset (r.obj heap) = .ok reset) (t : Tracker) :
    (t.finalizeRecord heap key r now).1 =
      { t with streams := t.streams.erase key }.countStreamClosed
        { r with wasReset := r.wasReset || reset } key now (lifetime r now) := by
  simp only [finalizeRecord, hreset]
  rfl

theorem closedStream_eq_finalize {stream : StreamObj} {r : StreamRecord} {reset : Bool}
    (hget : t.streams.get? (streamKey stream) = some r) (hobj : r.obj heap = some stream)
    (hreset : readReset (some stream) = .ok reset) :
    (t.closedStream now heap stream).1.outcome =
      ((t.refreshAt heap (streamKey stream) r).1.finalizeRecord heap (streamKey stream)
        (t.refreshAt heap (streamKey stream) r).2 now).1.outcome.countClosed := by
  let q := t.refreshRecordMetadata heap r
  let x := t.streams.erase (streamKey stream)
  obtain ⟨hframe, hsame⟩ := refreshRecordMetadata_frame t heap r
  have hseen : t.seen.streams.get? (streamKey stream) = some r := hget
  have hclosed : (t.closedStream now heap stream).1 = ((q.1.withTable x).closeRecord now stream q.2).1 := by
    have hrefresh := refreshRecordMetadata_withTable t x heap r
    simp only [closedStream, hseen, takeRecord]
    change ((((t.withTable x).refreshRecordMetadata heap r).1.closeRecord now stream
      ((t.withTable x).refreshRecordMetadata heap r).2)).1 = _
    rw [hrefresh]
  have hobj' : readReset (q.2.obj heap) = .ok reset := by
    rw [StreamRecord.obj, hsame.2.2.2]
    change readReset (r.obj heap) = _
    rw [hobj, hreset]
  have herase : (q.1.streams.set (streamKey stream) q.2).erase (streamKey stream) = x := by
    rw [Dict.erase_set, hframe.streams]
  have hfinal := finalizeRecord_eq now (streamKey stream) hobj'
    (t.refreshAt heap (streamKey stream) r).1
  have hright : ((t.refreshAt heap (streamKey stream) r).1.finalizeRecord heap (streamKey stream) q.2
      now).1.outcome = ((q.1.withTable x).countStreamClosed { q.2 with wasReset := q.2.wasReset || reset }
        (streamKey stream) now (lifetime q.2 now)).outcome := by
    rw [hfinal, ← outcome_withTable ((countStreamClosed_streams ..).trans herase),
      ← countStreamClosed_withTable]
    rfl
  rw [hclosed, closeRecord_outcome hreset, ← hright]
  rfl

variable (t now) in
theorem pruneLoop_unreadable (connId : ObjId) (muxedId : Option ObjId) {rest : List (String × StreamRecord)}
    (h : ∀ e ∈ rest, recordOnConn (e.2.obj heap) connId muxedId = true →
      ∃ err, readReset (e.2.obj heap) = .error err) :
    (pruneLoop heap now connId muxedId rest t).1 = t := by
  induction rest with
  | nil => rfl
  | cons e rest ih =>
    rw [List.forall_mem_cons] at h
    rw [pruneLoop]
    split_ifs with hon
    · obtain ⟨err, herr⟩ := h.1 hon
      simp [finalizeRecord, herr]
    · exact ih h.2

structure Closing (t : Tracker) (heap : Heap) (stream : StreamObj) (r : StreamRecord) (conn : ConnObj) :
    Prop where
  live : t.streams.get? (streamKey stream) = some r
  object : r.obj heap = some stream
  alone : ∀ e ∈ t.streams.entries, ∀ m, conn.muxedConn = .ok m →
    (recordOnConn (e.2.obj heap) conn.id m = true ↔ e.1 = streamKey stream)
  dead : recordStreamDead (some stream) = true

def Agree (t : Tracker) (heap : Heap) (stream : StreamObj) (conn : ConnObj) (now threshold : ℚ)
    (nowTs : String) (table : LiveTable) : Prop :=
  (t.closedStream now heap stream).1.outcome = (t.disconnected now nowTs heap conn).1.outcome ∧
    (t.closedStream now heap stream).1.outcome = (t.checkForLeaks now threshold heap table).1.outcome

theorem closedStream_unreadable {stream : StreamObj} {r : StreamRecord} {e : PyError}
    (hget : t.streams.get? (streamKey stream) = some r) (hreset : readReset (some stream) = .error e) :
    (t.closedStream now heap stream).1.streams = t.streams.erase (streamKey stream) := by
  have hseen : t.seen.streams.get? (streamKey stream) = some r := hget
  have hframe := (refreshRecordMetadata_frame
    { t.seen with streams := t.seen.streams.erase (streamKey stream) } heap r).1
  simp only [closedStream, hseen, takeRecord, Option.isNone_some, Bool.false_eq_true, false_and, if_false]
  rw [closeRecord_error hreset]
  exact hframe.streams

theorem disconnected_unreadable {stream : StreamObj} {r : StreamRecord} {conn : ConnObj} {nowTs : String}
    {e : PyError} (h : Closing t heap stream r conn) (hreset : readReset (some stream) = .error e) :
    (t.disconnected now nowTs heap conn).1.streams = t.streams := by
  unfold disconnected
  dsimp only
  split
  · rfl
  · rfl
  · next pid m _ hm =>
    have hdrop := (dropConnection_frame t.seen nowTs (orUnknown pid) conn.id m).streams
    generalize t.seen.dropConnection nowTs (orUnknown pid) conn.id m = u at hdrop ⊢
    have hdrop : u.streams = t.streams := hdrop
    have hon : ∀ e' ∈ u.streams.entries, recordOnConn (e'.2.obj heap) conn.id m = true →
        e'.2.obj heap = some stream := by
      intro e' he' hon
      rw [hdrop] at he'
      have hkey := (h.alone e' he' m hm).mp hon
      have hr : some e'.2 = some r := by
        rw [← h.live, ← hkey]
        exact (Dict.get?_eq_some.mpr he').symm
      rw [Option.some.inj hr]
      exact h.object
    have hloop := pruneLoop_unreadable u now conn.id m fun e' he' hon' =>
      ⟨e, (hon e' he' hon') ▸ hreset⟩
    have hnot : ¬(pruneLoop heap now conn.id m u.streams.entries u).2 = .ok () := by
      rw [pruneLoop_ok_iff]
      intro hall
      have hmem : (streamKey stream, r) ∈ u.streams.entries := by
        rw [hdrop]
        exact Dict.get?_eq_some.mp h.live
      obtain ⟨reset, hr⟩ := hall _ hmem ((h.alone _ (hdrop ▸ hmem) m hm).mpr rfl)
      have hr : readReset (r.obj heap) = .ok reset := hr
      rw [h.object, hreset] at hr
      contradiction
    unfold pruneStreams
    split
    · next v _ hres =>
      rw [hres] at hloop
      exact (congrArg streams hloop).trans hdrop
    · next v _ hres =>
      rw [hres] at hnot
      exact absurd rfl hnot

theorem closings_never_agree {stream : StreamObj} {r : StreamRecord} {conn : ConnObj} (h : Closing t heap stream r conn)
    (threshold : ℚ) (nowTs : String) (table : LiveTable) :
    ¬Agree t heap stream conn now threshold nowTs table := by
  rintro ⟨hdisc, hleak⟩
  cases hreset : readReset (some stream) with
  | ok reset =>
    have hclosed := congrArg Outcome.closedTotal hleak
    rw [closedStream_eq_finalize h.live h.object hreset] at hclosed
    have hfin := finalizeRecord_closed heap now
      (t.refreshAt heap (streamKey stream) r).1 (streamKey stream) (t.refreshAt heap (streamKey stream) r).2
    have hcheck : (t.checkForLeaks now threshold heap table).1.counters.closed = t.counters.closed :=
      exec_closed t (.checkForLeaks now threshold heap table) (by simp)
    have hrefresh : (t.refreshAt heap (streamKey stream) r).1.counters.closed = t.counters.closed :=
      refreshRecordMetadata_closed t heap r
    simp only [Outcome.countClosed, outcome] at hclosed
    omega
  | error e =>
    have hstreams := congrArg Outcome.streams hdisc
    change (t.closedStream now heap stream).1.streams = (t.disconnected now nowTs heap conn).1.streams at hstreams
    rw [closedStream_unreadable h.live hreset, disconnected_unreadable h hreset] at hstreams
    have hget := congrArg (Dict.get? · (streamKey stream)) hstreams
    simp [h.live] at hget

def deadStream : StreamObj := { sampleStream 10 with isClosed := .ok (some true) }

def deadRecord : StreamRecord where
  key := "conn:1:stream:11"
  peerId := "QmPeer"
  openedAt := 1
  streamRef := some 0
  direction := .outbound

def deadConn : ConnObj :=
  ⟨2, .ok (some 1), .ok (some "QmPeer"), ⟨"outbound", "tcp", "Noise", "yamux", none⟩⟩

def deadTracker : Tracker := (init.openedStream 1 0 deadStream).1

theorem deadTracker_closing : Closing deadTracker (fun _ => some deadStream) deadStream deadRecord deadConn := by
  have hentries : deadTracker.streams.entries = [(streamKey deadStream, deadRecord)] := by decide +kernel
  refine ⟨?_, rfl, ?_, rfl⟩
  · apply Dict.get?_eq_some.mpr
    simp [hentries]
  · intro e he m hm
    rw [hentries, List.mem_singleton] at he
    subst he
    simp only [iff_true]
    rfl

theorem closings_never_agree_sample :
    ¬Agree deadTracker (fun _ => some deadStream) deadStream deadConn 5 3600 "t1" ⟨[2, 1], ["QmPeer"]⟩ :=
  closings_never_agree deadTracker_closing 3600 "t1" ⟨[2, 1], ["QmPeer"]⟩

theorem closings_agree_fails :
    ¬∀ (t : Tracker) (heap : Heap) (stream : StreamObj) (r : StreamRecord) (conn : ConnObj) (now threshold : ℚ)
      (nowTs : String) (table : LiveTable), Closing t heap stream r conn →
        Agree t heap stream conn now threshold nowTs table := by
  intro h
  have hclosed := congrArg Outcome.closedTotal
    (h _ _ _ _ _ 5 3600 "t1" ⟨[2, 1], ["QmPeer"]⟩ deadTracker_closing).2
  revert hclosed
  decide +kernel

end IpfsLite.Tracker
