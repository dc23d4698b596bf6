import IpfsLite.Tracker

namespace IpfsLite.Tracker

variable {t u v : Tracker}

section Loops

variable {P : Tracker → Prop} {heap : Heap} {now : ℚ}

theorem pruneLoop_preserves (hfin : ∀ t key r, P t → P (t.finalizeRecord heap key r now).1) (connId : ObjId)
    (muxedId : Option ObjId) (rest : List (String × StreamRecord)) (ht : P t) :
    P (pruneLoop heap now connId muxedId rest t).1 := by
  induction rest generalizing t with
  | nil => exact ht
  | cons e rest ih =>
    have hfinal := hfin t e.1 e.2 ht
    rw [pruneLoop]
    split_ifs
    · split
      · next w _ hres =>
        rw [hres] at hfinal
        exact ih hfinal
      · next w _ hres =>
        rw [hres] at hfinal
        exact hfinal
    · exact ih ht

theorem leakLoop_preserves (href : ∀ t key r, P t → P (t.refreshAt heap key r).1)
    (hfin : ∀ t key r, P t → P (t.finalizeRecord heap key r now).1)
    (hflag : ∀ t key r, P t → P (t.flagLeak key r).1) (threshold : ℚ) (live : LiveTable)
    (rest : List (String × StreamRecord)) (leaked : List StreamRecord) (ht : P t) :
    P (leakLoop heap now threshold live rest t leaked).1 := by
  induction rest generalizing t leaked with
  | nil => exact ht
  | cons e rest ih =>
    have hrefreshed := href t e.1 e.2 ht
    have hfinal := hfin _ e.1 (t.refreshAt heap e.1 e.2).2 hrefreshed
    rw [leakLoop]
    dsimp only
    split_ifs
    · split
      · next w _ hres =>
        rw [hres] at hfinal
        exact ih leaked hfinal
      · next w _ hres =>
        rw [hres] at hfinal
        exact hfinal
    · exact ih _ (hflag _ e.1 _ hrefreshed)
    · exact ih leaked hrefreshed

end Loops

structure SameConns (t u : Tracker) : Prop where
  stats : u.stats = t.stats
  connected : u.totalConnectedEvents = t.totalConnectedEvents
  disconnected : u.totalDisconnectedEvents = t.totalDisconnectedEvents

namespace SameConns

theorem refl (t : Tracker) : SameConns t t := ⟨rfl, rfl, rfl⟩

theorem trans (h : SameConns t u) (k : SameConns u v) : SameConns t v :=
  ⟨k.stats.trans h.stats, k.connected.trans h.connected, k.disconnected.trans h.disconnected⟩

theorem atPeer (t : Tracker) (p : String) (f : PeerStreamStats → PeerStreamStats) :
    SameConns t (t.atPeer p f) := by
  unfold Tracker.atPeer
  split <;> exact ⟨rfl, rfl, rfl⟩

theorem countOpened (t : Tracker) (d : Direction) : SameConns t (t.countOpened d) := by
  cases d <;> exact ⟨rfl, rfl, rfl⟩

theorem countStreamClosed (t : Tracker) (r : StreamRecord) (k : String) (now : ℚ) (d : Option ℚ) :
    SameConns t (t.countStreamClosed r k now d) := by
  unfold Tracker.countStreamClosed countClosed
  cases r.direction <;> cases d <;> exact ⟨rfl, rfl, rfl⟩

theorem serveStream (t : Tracker) (k : ObjId) (protocol : Option String) :
    SameConns t (t.serveStream k protocol) := by
  unfold Tracker.serveStream
  split <;> exact ⟨rfl, rfl, rfl⟩

theorem popMeta (t : Tracker) (peerId : String) (k : ObjId) : SameConns t (t.popMeta peerId k) := by
  unfold Tracker.popMeta
  split
  · split_ifs <;> exact ⟨rfl, rfl, rfl⟩
  · exact ⟨rfl, rfl, rfl⟩

theorem refreshDirection (t : Tracker) (r : StreamRecord) (obj : Option StreamObj) :
    SameConns t (t.refreshDirection r obj).1 := by
  unfold Tracker.refreshDirection
  split
  · dsimp only
    split
    · exact refl t
    · exact refl t
    · exact (atPeer t _ _).trans (countOpened _ _)
  · exact refl t

theorem countProtocol (t : Tracker) (r : StreamRecord) : SameConns t (t.countProtocol r).1 := by
  unfold Tracker.countProtocol
  split
  · exact refl t
  · split_ifs
    · dsimp only
      split <;> exact ⟨rfl, rfl, rfl⟩
    · exact refl t

theorem refreshRecordMetadata (t : Tracker) (heap : Heap) (r : StreamRecord) :
    SameConns t (t.refreshRecordMetadata heap r).1 := by
  unfold Tracker.refreshRecordMetadata
  dsimp only
  apply SameConns.trans _ (countProtocol _ _)
  have hdir := refreshDirection t { r with protocol := r.protocol.or ((r.obj heap).bind streamProtocol) }
    (r.obj heap)
  split
  · split_ifs
    · exact hdir.trans (atPeer _ _ _)
    · exact hdir
  · exact hdir

theorem refreshAt (t : Tracker) (heap : Heap) (k : String) (r : StreamRecord) :
    SameConns t (t.refreshAt heap k r).1 := by
  have h := refreshRecordMetadata t heap r
  exact ⟨h.stats, h.connected, h.disconnected⟩

theorem finalizeRecord (t : Tracker) (heap : Heap) (k : String) (r : StreamRecord) (now : ℚ) :
    SameConns t (t.finalizeRecord heap k r now).1 := by
  unfold Tracker.finalizeRecord
  split
  · exact refl t
  · have h := countStreamClosed { t with streams := t.streams.erase k }
    exact (⟨rfl, rfl, rfl⟩ : SameConns t { t with streams := t.streams.erase k }).trans (h _ _ _ _)

theorem closeRecord (t : Tracker) (now : ℚ) (stream : StreamObj) (r : StreamRecord) :
    SameConns t (t.closeRecord now stream r).1 := by
  unfold Tracker.closeRecord
  dsimp only
  split
  · exact refl t
  · next reset _ =>
    have h := countStreamClosed t { r with
      closedAt := some now
      duration := if 0 < r.openedAt then some (now - r.openedAt) else none
      wasReset := r.wasReset || reset } (streamKey stream) now
      (if 0 < r.openedAt then some (now - r.openedAt) else none)
    rw [apply_ite Prod.fst, ite_self]
    exact ⟨h.stats, h.connected, h.disconnected⟩

theorem openedStream (t : Tracker) (now : ℚ) (ref : StreamRef) (stream : StreamObj) :
    SameConns t (t.openedStream now ref stream).1 := by
  have hcount (w : Tracker) (hw : SameConns t w) : SameConns t { w.countOpened (streamDirection stream) with
      counters.opened := (w.countOpened (streamDirection stream)).counters.opened + 1 } := by
    have h := hw.trans (countOpened w (streamDirection stream))
    exact ⟨h.stats, h.connected, h.disconnected⟩
  unfold Tracker.openedStream
  dsimp only
  split
  · exact hcount _ ⟨rfl, rfl, rfl⟩
  · exact hcount _ ⟨rfl, rfl, rfl⟩
  · apply SameConns.trans _ (serveStream _ _ _)
    exact hcount _ ⟨rfl, rfl, rfl⟩

theorem closedStream (t : Tracker) (now : ℚ) (heap : Heap) (stream : StreamObj) :
    SameConns t (t.closedStream now heap stream).1 := by
  have hseen : SameConns t t.seen := ⟨rfl, rfl, rfl⟩
  unfold Tracker.closedStream
  dsimp only
  split_ifs
  · exact hseen
  · apply SameConns.trans _ (closeRecord _ _ _ _)
    unfold takeRecord
    dsimp only
    split
    · apply SameConns.trans _ (refreshRecordMetadata _ _ _)
      exact ⟨rfl, rfl, rfl⟩
    · exact hseen

theorem pruneLoop (now : ℚ) (heap : Heap) (k : ObjId) (muxedId : Option ObjId)
    (rest : List (String × StreamRecord)) (t : Tracker) :
    SameConns t (pruneLoop heap now k muxedId rest t).1 := by
  apply pruneLoop_preserves
  · exact fun u key r h => h.trans (finalizeRecord u heap key r now)
  · exact refl t

theorem leakLoop (heap : Heap) (now threshold : ℚ) (table : LiveTable)
    (rest : List (String × StreamRecord)) (t : Tracker) (leaked : List StreamRecord) :
    SameConns t (leakLoop heap now threshold table rest t leaked).1 := by
  apply leakLoop_preserves
  · exact fun u key r h => h.trans (refreshAt u heap key r)
  · exact fun u key r h => h.trans (finalizeRecord u heap key r now)
  · exact fun u key r h => h.trans ⟨rfl, rfl, rfl⟩
  · exact refl t

theorem refreshLoop (heap : Heap) (rest : List (String × StreamRecord)) (t : Tracker) :
    SameConns t (refreshLoop heap rest t) := by
  induction rest generalizing t with
  | nil => exact refl t
  | cons e rest ih => exact (refreshAt t heap e.1 e.2).trans (ih _)

end SameConns

end IpfsLite.Tracker
