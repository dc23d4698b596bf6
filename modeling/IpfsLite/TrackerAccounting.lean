import IpfsLite.Lib.Runs
import IpfsLite.TrackerFrames

namespace IpfsLite.Tracker

open Runs

inductive Call
  | openedStream (now : ℚ) (ref : StreamRef) (stream : StreamObj)
  | closedStream (now : ℚ) (heap : Heap) (stream : StreamObj)
  | connected (now : ℚ) (nowTs : String) (conn : ConnObj)
  | disconnected (now : ℚ) (nowTs : String) (heap : Heap) (conn : ConnObj)
  | checkForLeaks (now threshold : ℚ) (heap : Heap) (live : LiveTable)
  | streamStatsSnapshot (heap : Heap)

def exec (t : Tracker) : Call → Tracker
  | .openedStream now ref stream => (t.openedStream now ref stream).1
  | .closedStream now heap stream => (t.closedStream now heap stream).1
  | .connected now nowTs conn => (t.connected now nowTs conn).1
  | .disconnected now nowTs heap conn => (t.disconnected now nowTs heap conn).1
  | .checkForLeaks now threshold heap live => (t.checkForLeaks now threshold heap live).1
  | .streamStatsSnapshot heap => t.refreshAll heap

def ofPeer (p : String) (r : StreamRecord) : Bool := r.peerId = p

def liveCount (t : Tracker) (p : String) : ℕ := t.streams.countP (ofPeer p)

structure OpenCount where
  current : ℕ
  max : ℕ

def PeerStreamStats.openCount (s : PeerStreamStats) : OpenCount := ⟨s.currentOpen, s.maxConcurrentOpen⟩

/-- `current_open` and `max_concurrent_open` of a peer, 0 where it has no entry. -/
def openCount (t : Tracker) (p : String) : OpenCount :=
  ((t.peerStreamStats.get? p).map PeerStreamStats.openCount).getD ⟨0, 0⟩

def Accounted (t : Tracker) : Prop :=
  ∀ p, (t.openCount p).current = t.liveCount p ∧ (t.openCount p).current ≤ (t.openCount p).max

variable {t u : Tracker} {heap : Heap} {now : ℚ}

theorem Accounted.congr (h : Accounted t) (hstreams : ∀ p, u.liveCount p = t.liveCount p)
    (hopen : u.openCount = t.openCount) : Accounted u := by
  intro p
  rw [hopen, hstreams]
  exact h p

theorem Accounted.update_iff (ht : Accounted t) {q : String} {c : OpenCount}
    (hopen : u.openCount = Function.update t.openCount q c)
    (hlive : ∀ p, p ≠ q → u.liveCount p = t.liveCount p) :
    Accounted u ↔ c.current = u.liveCount q ∧ c.current ≤ c.max := by
  constructor
  · intro hu
    have hq := hu q
    rw [hopen, Function.update_self] at hq
    exact hq
  · intro hc p
    rw [hopen]
    by_cases hp : p = q
    · subst hp
      rw [Function.update_self]
      exact hc
    · rw [Function.update_of_ne hp, hlive p hp]
      exact ht p

theorem openCount_withPeer {p : String} {f : PeerStreamStats → PeerStreamStats}
    {g : OpenCount → OpenCount} (hf : ∀ s, (f s).openCount = g s.openCount) :
    (t.withPeer p f).openCount = Function.update t.openCount p (g (t.openCount p)) := by
  funext q
  by_cases hq : q = p
  · subst hq
    rw [Function.update_self]
    have hdefault : PeerStreamStats.openCount { peerId := q } = ⟨0, 0⟩ := rfl
    cases h : t.peerStreamStats.get? q <;> simp [openCount, withPeer, h, hf, hdefault]
  · simp [openCount, withPeer, hq]

theorem openCount_atPeer {p : String} {f : PeerStreamStats → PeerStreamStats}
    (hf : ∀ s, (f s).openCount = s.openCount) : (t.atPeer p f).openCount = t.openCount := by
  funext q
  unfold atPeer
  split
  · rfl
  · next s hs =>
    by_cases hq : q = p
    · subst hq
      simp [openCount, hs, hf]
    · simp [openCount, hq]

theorem atPeer_streams (t : Tracker) (p : String) (f : PeerStreamStats → PeerStreamStats) :
    (t.atPeer p f).streams = t.streams := by
  unfold atPeer
  split <;> rfl

structure Frame (t u : Tracker) : Prop where
  streams : u.streams = t.streams
  opens : u.openCount = t.openCount

namespace Frame

theorem refl (t : Tracker) : Frame t t := ⟨rfl, rfl⟩

theorem trans {v : Tracker} (h : Frame t u) (k : Frame u v) : Frame t v :=
  ⟨k.streams.trans h.streams, k.opens.trans h.opens⟩

theorem accounted (h : Frame t u) (ht : Accounted t) : Accounted u := by
  apply ht.congr _ h.opens
  intro p
  rw [liveCount, liveCount, h.streams]

theorem accounted_iff (h : Frame t u) : Accounted u ↔ Accounted t :=
  ⟨fun hu => Frame.accounted ⟨h.streams.symm, h.opens.symm⟩ hu, h.accounted⟩

theorem atPeer {p : String} {f : PeerStreamStats → PeerStreamStats}
    (hf : ∀ s, (f s).openCount = s.openCount) : Frame t (t.atPeer p f) :=
  ⟨atPeer_streams t p f, openCount_atPeer hf⟩

theorem countOpened (t : Tracker) (d : Direction) : Frame t (t.countOpened d) := by
  cases d <;> exact ⟨rfl, rfl⟩

theorem countClosed (t : Tracker) (d : Direction) : Frame t (t.countClosed d) := by
  cases d <;> exact ⟨rfl, rfl⟩

end Frame

theorem openDirection_openCount (s : PeerStreamStats) (d : Direction) :
    (s.openDirection d).openCount = s.openCount := by
  cases d <;> rfl

theorem closed_openCount (s : PeerStreamStats) (d : Direction) (reset : Bool) :
    (s.closed d reset).openCount = ⟨s.openCount.current - 1, s.openCount.max⟩ := by
  cases d <;> rfl

theorem opened_openCount (s : PeerStreamStats) (d : Direction) (protocol : Option String) :
    (s.opened d protocol).openCount =
      ⟨s.openCount.current + 1, Nat.max s.openCount.max (s.openCount.current + 1)⟩ := by
  cases d <;> rfl

def SameStream (r r' : StreamRecord) : Prop :=
  r'.key = r.key ∧ r'.peerId = r.peerId ∧ r'.openedAt = r.openedAt ∧ r'.streamRef = r.streamRef

theorem refreshDirection_frame (t : Tracker) (r : StreamRecord) (obj : Option StreamObj) :
    Frame t (t.refreshDirection r obj).1 ∧ SameStream r (t.refreshDirection r obj).2 := by
  unfold refreshDirection
  dsimp only
  split_ifs with hd
  · split
    · exact ⟨.refl t, rfl, rfl, rfl, rfl⟩
    · exact ⟨.refl t, rfl, rfl, rfl, rfl⟩
    · refine ⟨?_, rfl, rfl, rfl, rfl⟩
      exact (Frame.atPeer fun s => openDirection_openCount s _).trans (.countOpened _ _)
  · exact ⟨.refl t, rfl, rfl, rfl, rfl⟩

theorem countProtocol_frame (t : Tracker) (r : StreamRecord) :
    Frame t (t.countProtocol r).1 ∧ SameStream r (t.countProtocol r).2 := by
  unfold countProtocol
  split
  · exact ⟨.refl t, rfl, rfl, rfl, rfl⟩
  · split_ifs
    · refine ⟨?_, rfl, rfl, rfl, rfl⟩
      dsimp only
      split <;> exact ⟨rfl, rfl⟩
    · exact ⟨.refl t, rfl, rfl, rfl, rfl⟩

theorem SameStream.trans {r r' r'' : StreamRecord} (h : SameStream r r') (k : SameStream r' r'') :
    SameStream r r'' :=
  ⟨k.1.trans h.1, k.2.1.trans h.2.1, k.2.2.1.trans h.2.2.1, k.2.2.2.trans h.2.2.2⟩

theorem refreshRecordMetadata_frame (t : Tracker) (heap : Heap) (r : StreamRecord) :
    Frame t (t.refreshRecordMetadata heap r).1 ∧ SameStream r (t.refreshRecordMetadata heap r).2 := by
  unfold refreshRecordMetadata
  dsimp only
  obtain ⟨hd, hr⟩ := refreshDirection_frame t { r with protocol := r.protocol.or ((r.obj heap).bind streamProtocol) }
    (r.obj heap)
  have hmove : ∀ u : Tracker, ∀ p, Frame u (u.atPeer r.peerId (·.moveProtocol r.protocol p)) :=
    fun u p => .atPeer fun s => rfl
  constructor
  · refine Frame.trans ?_ (countProtocol_frame _ _).1
    split
    · split_ifs
      · exact hd.trans (hmove _ _)
      · exact hd
    · exact hd
  · exact SameStream.trans hr (countProtocol_frame _ _).2

theorem countStreamClosed_streams (t : Tracker) (r : StreamRecord) (key : String) (now : ℚ)
    (duration : Option ℚ) : (t.countStreamClosed r key now duration).streams = t.streams := by
  cases duration <;> exact (Frame.countClosed _ _).streams

theorem countStreamClosed_openCount (t : Tracker) (r : StreamRecord) (key : String) (now : ℚ)
    (duration : Option ℚ) :
    (t.countStreamClosed r key now duration).openCount =
      Function.update t.openCount r.peerId
        ⟨(t.openCount r.peerId).current - 1, (t.openCount r.peerId).max⟩ := by
  have hwith := openCount_withPeer (t := t) (p := r.peerId) (g := fun c => ⟨c.current - 1, c.max⟩)
    fun s => closed_openCount s r.direction r.wasReset
  cases duration <;> exact ((Frame.countClosed _ _).opens).trans hwith

theorem liveCount_erase {key : String} {r : StreamRecord} (hget : t.streams.get? key = some r)
    (hs : u.streams = t.streams.erase key) (p : String) :
    u.liveCount p + (if r.peerId = p then 1 else 0) = t.liveCount p := by
  have herase := Dict.countP_erase (ofPeer p) t.streams key
  simp only [Dict.countAt, hget, Option.any_some, ofPeer, decide_eq_true_eq] at herase
  rw [liveCount, hs]
  exact herase

variable (now) in
theorem countStreamClosed_accounted (duration : Option ℚ) {key : String} {r r' : StreamRecord} (ht : Accounted t)
    (hget : t.streams.get? key = some r) (hs : u.streams = t.streams.erase key)
    (ho : u.openCount = t.openCount) (hp : r'.peerId = r.peerId) :
    Accounted (u.countStreamClosed r' key now duration) := by
  have hlive := liveCount_erase (u := u.countStreamClosed r' key now duration) hget
    ((countStreamClosed_streams ..).trans hs)
  have hopen := countStreamClosed_openCount u r' key now duration
  rw [ho, hp] at hopen
  apply (ht.update_iff hopen _).mpr
  · have hpeer := hlive r.peerId
    obtain ⟨hcur, hmax⟩ := ht r.peerId
    rw [if_pos rfl] at hpeer
    dsimp only
    omega
  · intro p hpp
    have hother := hlive p
    rw [if_neg (Ne.symm hpp)] at hother
    exact hother

theorem finalizeRecord_streams {key : String} {r : StreamRecord}
    (h : (t.finalizeRecord heap key r now).2 = .ok ()) :
    (t.finalizeRecord heap key r now).1.streams = t.streams.erase key := by
  unfold finalizeRecord at h ⊢
  split at h
  · contradiction
  · exact countStreamClosed_streams ..

variable (heap now) in
theorem finalizeRecord_accounted {key : String} {r : StreamRecord} (ht : Accounted t)
    (hget : ∃ r', t.streams.get? key = some r' ∧ r'.peerId = r.peerId) :
    Accounted (t.finalizeRecord heap key r now).1 := by
  obtain ⟨r', hget, hp⟩ := hget
  unfold finalizeRecord
  split
  · exact ht
  · dsimp only
    apply countStreamClosed_accounted now _ ht hget
    · rfl
    · rfl
    · exact hp.symm

def Ahead (t : Tracker) (rest : List (String × StreamRecord)) : Prop :=
  (rest.map Prod.fst).Nodup ∧ ∀ e ∈ rest, t.streams.get? e.1 = some e.2

theorem ahead_entries (t : Tracker) : Ahead t t.streams.entries :=
  ⟨t.streams.nodup, fun _ he => Dict.get?_eq_some.mpr he⟩

theorem Ahead.next {e : String × StreamRecord} {rest : List (String × StreamRecord)}
    (h : Ahead t (e :: rest)) (hother : ∀ k, k ≠ e.1 → u.streams.get? k = t.streams.get? k) :
    Ahead u rest := by
  obtain ⟨hn, hget⟩ := h
  rw [List.map_cons, List.nodup_cons] at hn
  refine ⟨hn.2, fun e' he' => ?_⟩
  rw [hother e'.1 fun hk => hn.1 (hk ▸ List.mem_map_of_mem he')]
  exact hget e' (List.mem_cons_of_mem _ he')

theorem Ahead.finalized {v : Tracker} {key : String} {r r' : StreamRecord}
    {rest : List (String × StreamRecord)} (h : Ahead t ((key, r) :: rest))
    (hother : ∀ k, k ≠ key → u.streams.get? k = t.streams.get? k)
    (hok : u.finalizeRecord heap key r' now = (v, .ok ())) : Ahead v rest := by
  have hstreams := finalizeRecord_streams (congrArg Prod.snd hok)
  rw [hok] at hstreams
  apply h.next
  intro k hk
  rw [hstreams, Dict.get?_erase, if_neg hk, hother k hk]

theorem Ahead.pruneLoop {P : Tracker → Prop}
    (hfin : ∀ t key r, t.streams.get? key = some r → P t → P (t.finalizeRecord heap key r now).1)
    (connId : ObjId) (muxedId : Option ObjId) {rest : List (String × StreamRecord)} (h : Ahead t rest) (ht : P t) :
    P (pruneLoop heap now connId muxedId rest t).1 := by
  induction rest generalizing t with
  | nil => exact ht
  | cons e rest ih =>
    obtain ⟨key, r⟩ := e
    have hfinal := hfin t key r (h.2 _ List.mem_cons_self) ht
    rw [Tracker.pruneLoop]
    split_ifs
    · split
      · next u _ hok =>
        rw [hok] at hfinal
        exact ih (h.finalized (fun _ _ => rfl) hok) hfinal
      · next u _ herr =>
        rw [herr] at hfinal
        exact hfinal
    · exact ih (h.next fun k _ => rfl) ht

variable (heap now) in
theorem pruneLoop_accounted (connId : ObjId) (muxedId : Option ObjId) {rest : List (String × StreamRecord)}
    (hahead : Ahead t rest) (ht : Accounted t) :
    Accounted (pruneLoop heap now connId muxedId rest t).1 := by
  apply hahead.pruneLoop _ connId muxedId ht
  intro u key r hget hu
  exact finalizeRecord_accounted heap now hu ⟨r, hget, rfl⟩

structure Touched (key : String) (t u : Tracker) : Prop where
  opens : u.openCount = t.openCount
  lives : ∀ p, u.liveCount p = t.liveCount p
  others : ∀ k, k ≠ key → u.streams.get? k = t.streams.get? k

namespace Touched

theorem accounted {key : String} (h : Touched key t u) (ht : Accounted t) : Accounted u :=
  ht.congr h.lives h.opens

theorem trans {key : String} {v : Tracker} (h : Touched key t u) (k : Touched key u v) : Touched key t v :=
  ⟨k.opens.trans h.opens, fun p => (k.lives p).trans (h.lives p),
    fun j hj => (k.others j hj).trans (h.others j hj)⟩

theorem of_set {key : String} {r : StreamRecord} (r' : StreamRecord) (hget : t.streams.get? key = some r)
    (hp : r'.peerId = r.peerId) (hs : u.streams = t.streams.set key r') (ho : u.openCount = t.openCount) :
    Touched key t u := by
  refine ⟨ho, fun p => ?_, fun k hk => ?_⟩
  · have hset := Dict.countP_set (ofPeer p) t.streams key r'
    simp only [Dict.countAt, hget, Option.any_some, ofPeer, hp] at hset
    rw [liveCount, hs]
    exact Nat.add_right_cancel hset
  · rw [hs, Dict.get?_set, if_neg hk]

end Touched

variable (heap) in
theorem refreshAt_touched {key : String} {r : StreamRecord} (hget : t.streams.get? key = some r) :
    Touched key t (t.refreshAt heap key r).1 ∧ SameStream r (t.refreshAt heap key r).2 ∧
      (t.refreshAt heap key r).1.streams.get? key = some (t.refreshAt heap key r).2 := by
  obtain ⟨hframe, hsame⟩ := refreshRecordMetadata_frame t heap r
  refine ⟨?_, hsame, by simp [refreshAt]⟩
  apply Touched.of_set _ hget hsame.2.1
  · rw [refreshAt, ← hframe.streams]
  · exact hframe.opens

theorem flagLeak_touched {key : String} {r : StreamRecord} (hget : t.streams.get? key = some r) :
    Touched key t (t.flagLeak key r).1 := by
  apply Touched.of_set { r with suspectedLeak := true } hget rfl rfl
  have hwith := openCount_withPeer (t := t) (p := r.peerId) (f := (·.suspectLeak)) (g := id) fun s => rfl
  exact hwith.trans (Function.update_eq_self _ _)

theorem Ahead.leakLoop {P : Tracker → Prop} (htouch : ∀ {t u key}, Touched key t u → P t → P u)
    (hfin : ∀ t key r, t.streams.get? key = some r → P t → P (t.finalizeRecord heap key r now).1)
    (threshold : ℚ) (live : LiveTable) {rest : List (String × StreamRecord)} {leaked : List StreamRecord}
    (hahead : Ahead t rest) (ht : P t) : P (leakLoop heap now threshold live rest t leaked).1 := by
  induction rest generalizing t leaked with
  | nil => exact ht
  | cons e rest ih =>
    obtain ⟨key, r⟩ := e
    have hget : t.streams.get? key = some r := hahead.2 _ List.mem_cons_self
    obtain ⟨htouched, -, hget'⟩ := refreshAt_touched heap hget
    have hrefreshed := htouch htouched ht
    have hfinal := hfin _ key _ hget' hrefreshed
    rw [Tracker.leakLoop]
    dsimp only
    split_ifs
    · split
      · next t' _ hok =>
        rw [hok] at hfinal
        exact ih (hahead.finalized htouched.others hok) hfinal
      · next t' e herr =>
        rw [herr] at hfinal
        exact hfinal
    · have hflag := flagLeak_touched hget'
      exact ih (hahead.next (htouched.trans hflag).others) (htouch hflag hrefreshed)
    · exact ih (hahead.next htouched.others) hrefreshed

theorem Ahead.refreshLoop {P : Tracker → Prop} (htouch : ∀ {t u key}, Touched key t u → P t → P u)
    {rest : List (String × StreamRecord)} (hahead : Ahead t rest) (ht : P t) : P (refreshLoop heap rest t) := by
  induction rest generalizing t with
  | nil => exact ht
  | cons e rest ih =>
    obtain ⟨key, r⟩ := e
    obtain ⟨htouched, -⟩ := refreshAt_touched heap (hahead.2 _ List.mem_cons_self)
    exact ih (hahead.next htouched.others) (htouch htouched ht)

theorem leakLoop_accounted (threshold : ℚ) (live : LiveTable) {rest : List (String × StreamRecord)}
    {leaked : List StreamRecord} (hahead : Ahead t rest) (ht : Accounted t) :
    Accounted (leakLoop heap now threshold live rest t leaked).1 := by
  refine hahead.leakLoop (fun h => h.accounted) (fun u key r hget hu => ?_) threshold live ht
  exact finalizeRecord_accounted heap now hu ⟨r, hget, rfl⟩

theorem refreshLoop_accounted {rest : List (String × StreamRecord)} (hahead : Ahead t rest)
    (ht : Accounted t) : Accounted (refreshLoop heap rest t) := hahead.refreshLoop (fun h => h.accounted) ht

theorem serveStream_frame (t : Tracker) (muxedId : ObjId) (protocol : Option String) :
    Frame t (t.serveStream muxedId protocol) := by
  unfold serveStream
  split <;> exact ⟨rfl, rfl⟩

theorem openedStream_effect (t : Tracker) (now : ℚ) (ref : StreamRef) (stream : StreamObj) :
    ∃ r : StreamRecord, r.peerId = orUnknown (streamPeerId stream) ∧
      (t.openedStream now ref stream).1.streams = t.streams.set (streamKey stream) r ∧
      (t.openedStream now ref stream).1.openCount = Function.update t.openCount r.peerId
        ⟨(t.openCount r.peerId).current + 1,
          Nat.max (t.openCount r.peerId).max ((t.openCount r.peerId).current + 1)⟩ := by
  let r : StreamRecord :=
    { key := streamKey stream, peerId := orUnknown (streamPeerId stream), openedAt := now
      streamRef := some ref, protocol := streamProtocol stream, direction := streamDirection stream
      streamId := streamId stream }
  have hwith := openCount_withPeer (t := t) (p := r.peerId) (f := (·.opened r.direction r.protocol))
    (g := fun c => ⟨c.current + 1, Nat.max c.max (c.current + 1)⟩) fun s => opened_openCount s _ _
  have hcount := Frame.countOpened
    ({ t.seen with streams := t.streams.set r.key r }.withPeer r.peerId (·.opened r.direction r.protocol))
    r.direction
  refine ⟨r, rfl, ?_, ?_⟩
  · unfold openedStream
    dsimp only
    split
    · exact hcount.streams
    · exact hcount.streams
    · exact (serveStream_frame _ _ _).streams.trans hcount.streams
  · unfold openedStream
    dsimp only
    split
    · exact hcount.opens.trans hwith
    · exact hcount.opens.trans hwith
    · exact (serveStream_frame _ _ _).opens.trans (hcount.opens.trans hwith)

theorem openedStream_accounted_iff (ht : Accounted t) (ref : StreamRef) (stream : StreamObj) :
    Accounted (t.openedStream now ref stream).1 ↔ streamKey stream ∉ t.streams.keys := by
  obtain ⟨r, -, hstreams, hopen⟩ := openedStream_effect t now ref stream
  have hlive : ∀ p, (t.openedStream now ref stream).1.liveCount p +
      Dict.countAt (ofPeer p) t.streams (streamKey stream) =
        t.liveCount p + if r.peerId = p then 1 else 0 := by
    intro p
    have hset := Dict.countP_set (ofPeer p) t.streams (streamKey stream) r
    simp only [ofPeer, decide_eq_true_eq] at hset
    rw [liveCount, hstreams]
    exact hset
  rw [← Dict.get?_eq_none]
  constructor
  · intro hacc
    by_contra hsome
    obtain ⟨old, hold⟩ := Option.ne_none_iff_exists'.mp hsome
    obtain ⟨hcur, -⟩ := hacc old.peerId
    have hl := hlive old.peerId
    obtain ⟨hcur', -⟩ := ht old.peerId
    rw [hopen] at hcur
    simp only [Dict.countAt, hold, Option.any_some, ofPeer, decide_true, if_true] at hl
    by_cases hp : r.peerId = old.peerId
    · rw [hp, Function.update_self] at hcur
      rw [if_pos hp] at hl
      dsimp only at hcur
      omega
    · rw [Function.update_of_ne (Ne.symm hp)] at hcur
      rw [if_neg hp] at hl
      omega
  · intro hnone
    simp only [Dict.countAt, hnone, Option.any_none, Bool.false_eq_true, if_false, Nat.add_zero] at hlive
    apply (ht.update_iff hopen _).mpr
    · have hpeer := hlive r.peerId
      obtain ⟨hcur, -⟩ := ht r.peerId
      rw [if_pos rfl] at hpeer
      exact ⟨by dsimp only; omega, Nat.le_max_right _ _⟩
    · intro p hp
      rw [hlive p, if_neg (Ne.symm hp), Nat.add_zero]

theorem connected_frame (t : Tracker) (now : ℚ) (nowTs : String) (conn : ConnObj) :
    Frame t (t.connected now nowTs conn).1 := by
  unfold connected
  dsimp only
  split
  · exact ⟨rfl, rfl⟩
  · split <;> exact ⟨rfl, rfl⟩

theorem closeRecord_error {stream : StreamObj} {e : PyError} (he : readReset (some stream) = .error e)
    (t : Tracker) (r : StreamRecord) : (t.closeRecord now stream r).1 = t := by
  simp [closeRecord, he]

variable (now) in
theorem closeRecord_ok {stream : StreamObj} {reset : Bool} (he : readReset (some stream) = .ok reset)
    (t : Tracker) (r : StreamRecord) :
    ∃ r' d, r'.peerId = r.peerId ∧
      Frame (t.countStreamClosed r' (streamKey stream) now d) (t.closeRecord now stream r).1 := by
  simp only [closeRecord, he]
  refine ⟨{ r with
    closedAt := some now
    duration := if 0 < r.openedAt then some (now - r.openedAt) else none
    wasReset := r.wasReset || reset }, if 0 < r.openedAt then some (now - r.openedAt) else none, rfl, ?_⟩
  rw [apply_ite Prod.fst, ite_self]
  exact ⟨rfl, rfl⟩

theorem closedStream_record {stream : StreamObj} {r : StreamRecord}
    (hget : t.streams.get? (streamKey stream) = some r) : (t.closedStream now heap stream).1 =
      ((({ t.seen with streams := t.streams.erase (streamKey stream) } : Tracker).refreshRecordMetadata
        heap r).1.closeRecord now stream (({ t.seen with streams := t.streams.erase (streamKey stream) } :
          Tracker).refreshRecordMetadata heap r).2).1 := by
  have hseen : t.seen.streams.get? (streamKey stream) = some r := hget
  have htake : t.seen.takeRecord heap stream =
      { t.seen with streams := t.streams.erase (streamKey stream) }.refreshRecordMetadata heap r := by
    simp only [takeRecord, hseen]
    rfl
  rw [← htake]
  simp [closedStream, hseen]

theorem closedStream_found {stream : StreamObj} {r : StreamRecord} (ht : Accounted t)
    (hget : t.streams.get? (streamKey stream) = some r) :
    Accounted (t.closedStream now heap stream).1 ↔ ∃ reset, readReset (some stream) = .ok reset := by
  obtain ⟨hframe, hsame⟩ := refreshRecordMetadata_frame
    { t.seen with streams := t.streams.erase (streamKey stream) } heap r
  rw [closedStream_record hget]
  cases hr : readReset (some stream) with
  | error e =>
    rw [closeRecord_error hr]
    constructor
    · intro hacc
      have hlive := liveCount_erase hget hframe.streams r.peerId
      obtain ⟨hcur, -⟩ := hacc r.peerId
      obtain ⟨hcur', -⟩ := ht r.peerId
      have hopen := congrFun hframe.opens r.peerId
      rw [hopen] at hcur
      change (t.openCount r.peerId).current = _ at hcur
      rw [if_pos rfl] at hlive
      omega
    · rintro ⟨reset, h⟩
      contradiction
  | ok reset =>
    obtain ⟨r', d, hp, hclose⟩ := closeRecord_ok now hr
      ({ t.seen with streams := t.streams.erase (streamKey stream) }.refreshRecordMetadata heap r).1
      ({ t.seen with streams := t.streams.erase (streamKey stream) }.refreshRecordMetadata heap r).2
    have hacc := countStreamClosed_accounted now d ht hget hframe.streams
      hframe.opens (hp.trans hsame.2.1)
    exact ⟨fun _ => ⟨reset, rfl⟩, fun _ => hclose.accounted hacc⟩

theorem closedStream_unknown {stream : StreamObj} (ht : Accounted t)
    (hget : t.streams.get? (streamKey stream) = none) :
    Accounted (t.closedStream now heap stream).1 ↔
      streamKey stream ∈ t.finalizedKeys.keys ∨ (∃ e, readReset (some stream) = .error e) ∨
        t.liveCount (orUnknown (streamPeerId stream)) = 0 := by
  have hseen : t.seen.streams.get? (streamKey stream) = none := hget
  have hframe : Frame t t.seen := ⟨rfl, rfl⟩
  cases hfin : t.finalizedKeys.get? (streamKey stream) with
  | some at' =>
    have hfin' : t.seen.finalizedKeys.get? (streamKey stream) = some at' := hfin
    have hclosed : (t.closedStream now heap stream).1 = t.seen := by simp [closedStream, hseen, hfin']
    rw [hclosed]
    exact ⟨fun _ => .inl (Dict.mem_keys.mpr ⟨at', hfin⟩), fun _ => hframe.accounted ht⟩
  | none =>
    have hfin' : t.seen.finalizedKeys.get? (streamKey stream) = none := hfin
    have hnot : streamKey stream ∉ t.finalizedKeys.keys := Dict.get?_eq_none.mp hfin
    let r : StreamRecord :=
      { key := streamKey stream, peerId := orUnknown (streamPeerId stream), openedAt := 0
        streamRef := none }
    have hclosed : (t.closedStream now heap stream).1 = (t.seen.closeRecord now stream r).1 := by
      simp [closedStream, takeRecord, hseen, hfin', r]
    rw [hclosed]
    cases hr : readReset (some stream) with
    | error e =>
      rw [closeRecord_error hr]
      exact ⟨fun _ => .inr (.inl ⟨e, rfl⟩), fun _ => hframe.accounted ht⟩
    | ok reset =>
      obtain ⟨r', d, hp, hclose⟩ := closeRecord_ok now hr t.seen r
      have hp : r'.peerId = orUnknown (streamPeerId stream) := hp
      rw [hclose.accounted_iff]
      have hlive : ∀ q, (t.seen.countStreamClosed r' (streamKey stream) now d).liveCount q = t.liveCount q := by
        intro q
        rw [liveCount, countStreamClosed_streams]
        rfl
      have hopen : (t.seen.countStreamClosed r' (streamKey stream) now d).openCount =
          Function.update t.openCount r'.peerId
            ⟨(t.openCount r'.peerId).current - 1, (t.openCount r'.peerId).max⟩ :=
        countStreamClosed_openCount ..
      obtain ⟨hcur, hmax⟩ := ht r'.peerId
      rw [← hp, ht.update_iff hopen fun p _ => hlive p, hlive]
      dsimp only
      constructor
      · rintro ⟨hcur', -⟩
        exact .inr (.inr (by omega))
      · rintro (h | ⟨e, h⟩ | h)
        · exact absurd h hnot
        · contradiction
        · omega

theorem popMeta_frame (t : Tracker) (peerId : String) (k : ObjId) : Frame t (t.popMeta peerId k) := by
  unfold popMeta
  split
  · split_ifs <;> exact ⟨rfl, rfl⟩
  · exact ⟨rfl, rfl⟩

theorem dropConnection_frame (t : Tracker) (nowTs peerId : String) (connId : ObjId) (muxedId : Option ObjId) :
    Frame t (t.dropConnection nowTs peerId connId muxedId) := by
  have hid := popMeta_frame t peerId connId
  cases muxedId with
  | none => exact ⟨hid.streams, hid.opens⟩
  | some m =>
    have hmuxed := hid.trans (popMeta_frame _ peerId m)
    exact ⟨hmuxed.streams, hmuxed.opens⟩

theorem dropConnection_stats (t : Tracker) (nowTs peerId : String) (connId : ObjId) (muxedId : Option ObjId) :
    (t.dropConnection nowTs peerId connId muxedId).stats = disconnectStats t.stats peerId nowTs := by
  cases muxedId <;> simp [dropConnection, (SameConns.popMeta _ _ _).stats]

variable (heap now) in
theorem finalizeRecord_ok_iff (t : Tracker) (key : String) (r : StreamRecord) :
    (t.finalizeRecord heap key r now).2 = .ok () ↔ ∃ reset, readReset (r.obj heap) = .ok reset := by
  unfold finalizeRecord
  cases readReset (r.obj heap) <;> simp

variable (heap now) in
theorem pruneLoop_ok_iff (connId : ObjId) (muxedId : Option ObjId) (rest : List (String × StreamRecord))
    (t : Tracker) : (pruneLoop heap now connId muxedId rest t).2 = .ok () ↔
      ∀ e ∈ rest, recordOnConn (e.2.obj heap) connId muxedId = true →
        ∃ reset, readReset (e.2.obj heap) = .ok reset := by
  induction rest generalizing t with
  | nil => simp [pruneLoop]
  | cons e rest ih =>
    have hfin := finalizeRecord_ok_iff heap now t e.1 e.2
    rw [pruneLoop, List.forall_mem_cons]
    split_ifs with hon
    · split
      · next t' _ hok =>
        rw [hok] at hfin
        simp only [true_iff] at hfin
        rw [ih t']
        exact ⟨fun h => ⟨fun _ => hfin, h⟩, fun h => h.2⟩
      · next t' err herr =>
        rw [herr] at hfin
        simp only [reduceCtorEq, false_iff] at hfin ⊢
        exact fun h => hfin (h.1 hon)
    · rw [ih t]
      exact ⟨fun h => ⟨fun h' => absurd h' hon, h⟩, fun h => h.2⟩

theorem pruneLoop_streams (connId : ObjId) (muxedId : Option ObjId) {rest : List (String × StreamRecord)}
    {t : Tracker} (hok : (pruneLoop heap now connId muxedId rest t).2 = .ok ()) :
    (pruneLoop heap now connId muxedId rest t).1.streams = t.streams.eraseAll
      ((rest.filter fun e => recordOnConn (e.2.obj heap) connId muxedId).map Prod.fst) := by
  induction rest generalizing t with
  | nil => rfl
  | cons e rest ih =>
    rw [pruneLoop] at hok ⊢
    split_ifs at hok ⊢ with hon
    · rw [List.filter_cons_of_pos (by simpa using hon)]
      split at hok
      · next t' _ hfin =>
        have hstreams := finalizeRecord_streams (congrArg Prod.snd hfin)
        rw [hfin] at hstreams
        rw [ih hok, hstreams]
        rfl
      · contradiction
    · rw [List.filter_cons_of_neg (by simpa using hon)]
      exact ih hok

theorem mem_streams_entries {k : String} {r : StreamRecord} :
    (k, r) ∈ t.streams.entries ↔ t.streams.get? k = some r := Dict.get?_eq_some.symm

theorem liveCount_eq_zero {p : String} : t.liveCount p = 0 ↔ ∀ e ∈ t.streams.entries, e.2.peerId ≠ p := by
  simp [liveCount, Dict.countP, List.countP_eq_zero, ofPeer]

theorem enforce_openCount (hcap : 500 < t.stats.entries.length) (p : String) :
    (t.enforceStatsCapacity now).openCount p = if p ∈ toRemove t.stats then ⟨0, 0⟩ else t.openCount p := by
  have hopen : (t.enforceStatsCapacity now).openCount p =
      (((t.peerStreamStats.eraseAll (toRemove t.stats)).get? p).map PeerStreamStats.openCount).getD ⟨0, 0⟩ := by
    unfold enforceStatsCapacity
    rw [if_neg (by omega)]
    dsimp only
    split_ifs <;> rfl
  rw [hopen, Dict.get?_eraseAll]
  split_ifs <;> rfl

theorem enforce_accounted_iff (hcap : 500 < t.stats.entries.length) (ht : Accounted t)
    (hstreams : (t.enforceStatsCapacity now).streams = t.streams) :
    Accounted (t.enforceStatsCapacity now) ↔ ∀ p ∈ toRemove t.stats, t.liveCount p = 0 := by
  have hlive : ∀ p, (t.enforceStatsCapacity now).liveCount p = t.liveCount p := by
    intro p
    rw [liveCount, hstreams, liveCount]
  constructor
  · intro h p hp
    have hcur := (h p).1
    rw [enforce_openCount hcap, if_pos hp, hlive] at hcur
    exact hcur.symm
  · intro h p
    rw [enforce_openCount hcap, hlive]
    split_ifs with hp
    · exact ⟨(h p hp).symm, le_refl 0⟩
    · exact ht p

/-- The sweep at the end of `disconnected` removes no peer with a record on another connection. -/
def SweepsIdlePeers (t : Tracker) (nowTs : String) (heap : Heap) (connId : ObjId) (muxedId : Option ObjId)
    (peerId : String) : Prop :=
  2000 < t.stats.entries.length →
    (∀ e ∈ t.streams.entries, recordOnConn (e.2.obj heap) connId muxedId = true →
      ∃ reset, readReset (e.2.obj heap) = .ok reset) →
    ∀ p ∈ toRemove (disconnectStats t.stats peerId nowTs), ∀ e ∈ t.streams.entries, e.2.peerId = p →
      recordOnConn (e.2.obj heap) connId muxedId = true

variable (heap now) in
theorem pruneStreams_accounted_iff (nowTs peerId : String) (connId : ObjId) (muxedId : Option ObjId)
    (ht : Accounted t) :
    Accounted ((t.dropConnection nowTs peerId connId muxedId).pruneStreams now heap connId muxedId).1 ↔
      SweepsIdlePeers t nowTs heap connId muxedId peerId := by
  have hdrop := dropConnection_frame t nowTs peerId connId muxedId
  have hstats := dropConnection_stats t nowTs peerId connId muxedId
  have hahead := ahead_entries (t.dropConnection nowTs peerId connId muxedId)
  generalize t.dropConnection nowTs peerId connId muxedId = u at hdrop hstats hahead ⊢
  have hacc := pruneLoop_accounted heap now connId muxedId hahead (hdrop.accounted ht)
  have hok := pruneLoop_ok_iff heap now connId muxedId u.streams.entries u
  have hpstats := (SameConns.pruneLoop now heap connId muxedId u.streams.entries u).stats
  unfold pruneStreams SweepsIdlePeers
  rw [← hdrop.streams, ← hok, ← length_disconnectStats t.stats peerId nowTs, ← hstats]
  split
  · next v e herr =>
    rw [herr] at hacc ⊢
    exact ⟨fun _ _ h => by contradiction, fun _ => hacc⟩
  · next v _ hres =>
    have hstreams := pruneLoop_streams connId muxedId (congrArg Prod.snd hres)
    rw [hres] at hacc hpstats hstreams ⊢
    have hpstats : v.stats = u.stats := hpstats
    dsimp only at hacc hstreams ⊢
    rw [hpstats]
    by_cases hcap : u.stats.entries.length > 2000
    · rw [if_pos hcap, enforce_accounted_iff (by rw [hpstats]; omega) hacc (enforce_streams v now), hpstats]
      have hlive : ∀ p, v.liveCount p = 0 ↔ ∀ e ∈ u.streams.entries, e.2.peerId = p →
          recordOnConn (e.2.obj heap) connId muxedId = true := by
        intro p
        rw [liveCount_eq_zero]
        constructor
        · intro h e he hp
          by_contra hnot
          refine h e ?_ hp
          apply mem_streams_entries.mpr
          rw [hstreams, Dict.get?_eraseAll, if_neg]
          · exact mem_streams_entries.mp he
          · intro hmem
            obtain ⟨e', he', hkey⟩ := List.mem_map.mp hmem
            obtain ⟨he', hon⟩ := List.mem_filter.mp he'
            have heq : some e'.2 = some e.2 := by
              rw [← mem_streams_entries.mp he, ← mem_streams_entries.mp he', hkey]
            rw [Option.some.inj heq] at hon
            exact hnot hon
        · intro h e he hp
          have hget := mem_streams_entries.mp he
          rw [hstreams, Dict.get?_eraseAll] at hget
          split_ifs at hget with hmem
          have he' : e ∈ u.streams.entries := mem_streams_entries.mpr hget
          exact hmem (List.mem_map_of_mem (List.mem_filter.mpr ⟨he', h e he' hp⟩))
      simp only [hlive]
      exact ⟨fun h _ _ => h, fun h => h hcap trivial⟩
    · rw [if_neg hcap]
      exact ⟨fun _ h => absurd h hcap, fun _ => hacc⟩

/-- A new stream has a key that no record has. A close finds a record and a readable `_state`, or is
a duplicate, or raises at `_state`, or is of a peer without records. The memory cap removes only
peers without records. -/
def Balanced (t : Tracker) : Call → Prop
  | .openedStream _ _ stream => streamKey stream ∉ t.streams.keys
  | .closedStream _ _ stream =>
    if streamKey stream ∈ t.streams.keys then ∃ reset, readReset (some stream) = .ok reset
    else streamKey stream ∈ t.finalizedKeys.keys ∨ (∃ e, readReset (some stream) = .error e) ∨
      t.liveCount (orUnknown (streamPeerId stream)) = 0
  | .disconnected _ nowTs heap conn =>
    ∀ pid muxedId, conn.peerId = .ok pid → conn.muxedConn = .ok muxedId →
      SweepsIdlePeers t nowTs heap conn.id muxedId (orUnknown pid)
  | .connected .. | .checkForLeaks .. | .streamStatsSnapshot _ => True

theorem closedStream_accounted_iff {stream : StreamObj} (ht : Accounted t) :
    Accounted (t.closedStream now heap stream).1 ↔ Balanced t (.closedStream now heap stream) := by
  simp only [Balanced]
  split_ifs with hkey
  · obtain ⟨r, hr⟩ := Dict.mem_keys.mp hkey
    exact closedStream_found ht hr
  · exact closedStream_unknown ht (Dict.get?_eq_none.mpr hkey)

theorem disconnected_accounted_iff {nowTs : String} {conn : ConnObj} (ht : Accounted t) :
    Accounted (t.disconnected now nowTs heap conn).1 ↔ Balanced t (.disconnected now nowTs heap conn) := by
  have hseen : Frame t t.seen := ⟨rfl, rfl⟩
  simp only [disconnected, Balanced]
  cases hp : conn.peerId with
  | error e => exact ⟨fun _ => by simp, fun _ => hseen.accounted ht⟩
  | ok pid =>
    cases hm : conn.muxedConn with
    | error e => exact ⟨fun _ => by simp, fun _ => hseen.accounted ht⟩
    | ok muxedId =>
      have hprune := pruneStreams_accounted_iff heap now nowTs (orUnknown pid) conn.id muxedId
        (hseen.accounted ht)
      simp only [Except.ok.injEq]
      rw [hprune]
      constructor
      · rintro h _ _ rfl rfl
        exact h
      · exact fun h => h _ _ rfl rfl

theorem exec_accounted_iff {call : Call} (ht : Accounted t) : Accounted (t.exec call) ↔ Balanced t call := by
  cases call with
  | openedStream now ref stream => exact openedStream_accounted_iff ht ref stream
  | closedStream now heap stream => exact closedStream_accounted_iff ht
  | connected now nowTs conn =>
    exact ⟨fun _ => trivial, fun _ => (connected_frame t now nowTs conn).accounted ht⟩
  | disconnected now nowTs heap conn => exact disconnected_accounted_iff ht
  | checkForLeaks now threshold heap live =>
    exact ⟨fun _ => trivial, fun _ => leakLoop_accounted _ _ (ahead_entries t) ht⟩
  | streamStatsSnapshot heap => exact ⟨fun _ => trivial, fun _ => refreshLoop_accounted (ahead_entries t) ht⟩

theorem init_accounted : Accounted init := fun _ => ⟨rfl, le_refl 0⟩

theorem streamAccounting_iff (calls : List Call) (t : Tracker) :
    Run (fun t call u => u = t.exec call ∧ Accounted u) init calls t ↔
      Run (fun t call u => u = t.exec call ∧ Balanced t call) init calls t := by
  apply Run.congr_of_invariant (P := Accounted)
  · exact fun _ _ _ _ h => h.2
  · rintro t call u ht
    apply and_congr_right
    rintro rfl
    exact exec_accounted_iff ht
  · exact init_accounted

def sampleStream (id : ObjId) : StreamObj :=
  let conn : MuxedConnObj := ⟨1, .ok (some "QmPeer"), .ok (some false)⟩
  { id := id
    muxedStream := .ok (some ⟨id + 1, .ok (some conn), .ok none, .ok none, .ok (some true), .ok none,
      .ok (some false), .ok none⟩)
    muxedConn := .ok (some conn)
    swarmConn := .ok (some ⟨2, .ok (some false)⟩)
    getProtocol := .ok none
    direction := .ok none
    state := .ok (some "OPEN")
    isClosed := .ok none }

theorem streamAccounting_fails :
    ¬∀ (calls : List Call) (t : Tracker),
      Run (fun t call u => u = t.exec call) init calls t → Accounted t := by
  intro h
  let calls : List Call :=
    [.openedStream 1 0 (sampleStream 10), .closedStream 2 (fun _ => none) (sampleStream 20)]
  have hrun : Run (fun t call u => u = t.exec call) init calls (calls.foldl exec init) :=
    .head rfl (.single rfl)
  have hcount := (h calls _ hrun "QmPeer").1
  revert hcount
  decide +kernel

end IpfsLite.Tracker
