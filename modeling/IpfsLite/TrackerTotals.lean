import IpfsLite.TrackerAccounting

/-!
The totals of opened and closed streams by direction, against the records of that direction. `drift`
is what a direction was opened too often: every call changes it by what it forgets.
-/

namespace IpfsLite.Tracker

open Runs

def active (t : Tracker) (d : Direction) : ℕ := t.streams.countP fun r => r.direction = d

def StreamSnapshot.Balanced (s : StreamSnapshot) : Prop :=
  (s.totalOutboundOpened : ℤ) - s.totalOutboundClosed = s.activeOutboundStreams ∧
    (s.totalInboundOpened : ℤ) - s.totalInboundClosed = s.activeInboundStreams

def TotalsBalance (t : Tracker) : Prop := t.streamSnapshot.Balanced

def net (t : Tracker) : Direction → ℤ
  | .outbound => t.totalOutboundOpened - t.totalOutboundClosed
  | .inbound => t.totalInboundOpened - t.totalInboundClosed
  | .unknown => 0

def drift (t : Tracker) (d : Direction) : ℤ := t.net d - t.active d

theorem totalsBalance_iff {t : Tracker} : TotalsBalance t ↔ ∀ d, d ≠ .unknown → t.drift d = 0 := by
  constructor
  · rintro ⟨hout, hin⟩ d hd
    cases d with
    | outbound => exact sub_eq_zero.mpr hout
    | inbound => exact sub_eq_zero.mpr hin
    | unknown => exact absurd rfl hd
  · intro h
    exact ⟨sub_eq_zero.mp (h .outbound (by decide)), sub_eq_zero.mp (h .inbound (by decide))⟩

variable {t u : Tracker} {heap : Heap} {now : ℚ} {d : Direction} {key : String} {r : StreamRecord}

theorem drift_congr (hs : u.streams = t.streams) (hn : u.net d = t.net d) : u.drift d = t.drift d := by
  rw [drift, drift, active, active, hs, hn]

theorem net_countOpened (hd : d ≠ .unknown) (t : Tracker) (x : Direction) :
    (t.countOpened x).net d = t.net d + if x = d then 1 else 0 := by
  cases x <;> cases d <;> first | contradiction | (simp [countOpened, net]) <;> omega

theorem net_countClosed (hd : d ≠ .unknown) (t : Tracker) (x : Direction) :
    (t.countClosed x).net d = t.net d - if x = d then 1 else 0 := by
  cases x <;> cases d <;> first | contradiction | (simp [countClosed, net]) <;> omega

theorem net_atPeer (t : Tracker) (p : String) (f : PeerStreamStats → PeerStreamStats) :
    (t.atPeer p f).net = t.net := by
  unfold atPeer
  split <;> rfl

theorem peers_atPeer (t : Tracker) (p : String) (f : PeerStreamStats → PeerStreamStats) (q : String) :
    q ∈ (t.atPeer p f).peerStreamStats.keys ↔ q ∈ t.peerStreamStats.keys := by
  unfold atPeer
  split
  · rfl
  · next s hs =>
    rw [Dict.mem_keys_set]
    exact or_iff_right_of_imp fun hq => hq ▸ Dict.mem_keys.mpr ⟨s, hs⟩

theorem peers_withPeer (t : Tracker) (p : String) (f : PeerStreamStats → PeerStreamStats) (q : String) :
    q ∈ (t.withPeer p f).peerStreamStats.keys ↔ q = p ∨ q ∈ t.peerStreamStats.keys :=
  Dict.mem_keys_set ..

theorem peers_countOpened (t : Tracker) (x : Direction) :
    (t.countOpened x).peerStreamStats = t.peerStreamStats := by
  cases x <;> rfl

theorem network_atPeer (t : Tracker) (p : String) (f : PeerStreamStats → PeerStreamStats) :
    (t.atPeer p f).hasNetwork = t.hasNetwork := by
  unfold atPeer
  split <;> rfl

theorem network_countOpened (t : Tracker) (x : Direction) : (t.countOpened x).hasNetwork = t.hasNetwork := by
  cases x <;> rfl

def refreshedDirection (heap : Heap) (r : StreamRecord) : Direction :=
  if r.direction = .unknown then ((r.obj heap).map streamDirection).getD .unknown else r.direction

def Learns (heap : Heap) (r : StreamRecord) (d : Direction) : Prop :=
  r.direction = .unknown ∧ refreshedDirection heap r = d

instance (heap : Heap) (r : StreamRecord) (d : Direction) : Decidable (Learns heap r d) :=
  inferInstanceAs (Decidable (_ ∧ _))

structure Refreshes (t : Tracker) (heap : Heap) (r : StreamRecord) (u : Tracker) (r' : StreamRecord) :
    Prop where
  direction : r'.direction = refreshedDirection heap r
  net : ∀ d, d ≠ .unknown →
    u.net d = t.net d + if Learns heap r d ∧ r.peerId ∈ t.peerStreamStats.keys then 1 else 0
  peers : ∀ p, p ∈ u.peerStreamStats.keys ↔ p ∈ t.peerStreamStats.keys
  network : u.hasNetwork = t.hasNetwork
  suspected : r'.suspectedLeak = r.suspectedLeak

theorem refreshDirection_refreshes (t : Tracker) (heap : Heap) (r : StreamRecord) :
    Refreshes t heap r (t.refreshDirection r (r.obj heap)).1 (t.refreshDirection r (r.obj heap)).2 := by
  unfold refreshDirection
  dsimp only
  by_cases hu : r.direction = .unknown
  · have hnew : ((r.obj heap).map streamDirection).getD .unknown = refreshedDirection heap r := by
      rw [refreshedDirection, if_pos hu]
    rw [if_pos hu, hnew]
    have hlearns (d : Direction) : Learns heap r d ↔ refreshedDirection heap r = d := and_iff_right hu
    split
    · next hn =>
      refine ⟨rfl, fun d hd => ?_, fun p => Iff.rfl, rfl, rfl⟩
      simp [hlearns, hn, Ne.symm hd]
    · next hnone _ =>
      refine ⟨rfl, fun d hd => ?_, fun p => Iff.rfl, rfl, rfl⟩
      have habsent : r.peerId ∉ t.peerStreamStats.keys := Dict.get?_eq_none.mp hnone
      simp [habsent]
    · next s hsome _ =>
      refine ⟨rfl, fun d hd => ?_, fun p => ?_, ?_, rfl⟩
      · have hpresent : r.peerId ∈ t.peerStreamStats.keys := Dict.mem_keys.mpr ⟨s, hsome⟩
        rw [net_countOpened hd, net_atPeer]
        simp [hlearns, hpresent]
      · rw [peers_countOpened, peers_atPeer]
      · rw [network_countOpened, network_atPeer]
  · rw [if_neg hu]
    refine ⟨by rw [refreshedDirection, if_neg hu], fun d hd => ?_, fun p => Iff.rfl, rfl, rfl⟩
    simp [Learns, hu]

theorem Refreshes.countProtocol {v : Tracker} {r' : StreamRecord} (h : Refreshes t heap r v r') :
    Refreshes t heap r (v.countProtocol r').1 (v.countProtocol r').2 := by
  have hkeep (w : Tracker) (hnet : w.net = v.net) (hpeers : w.peerStreamStats = v.peerStreamStats)
      (hnetwork : w.hasNetwork = v.hasNetwork) :
      Refreshes t heap r w { r' with countedInProtoTotal := true } := by
    refine ⟨h.direction, fun d hd => ?_, fun p => ?_, hnetwork.trans h.network, h.suspected⟩
    · rw [hnet]
      exact h.net d hd
    · rw [hpeers]
      exact h.peers p
  unfold Tracker.countProtocol
  split
  · exact h
  · split_ifs
    · dsimp only
      split
      · exact hkeep _ (funext fun d => by cases d <;> rfl) rfl rfl
      · exact hkeep _ (funext fun d => by cases d <;> rfl) rfl rfl
      · exact hkeep _ (funext fun d => by cases d <;> rfl) rfl rfl
    · exact h

theorem refreshRecordMetadata_refreshes (t : Tracker) (heap : Heap) (r : StreamRecord) :
    Refreshes t heap r (t.refreshRecordMetadata heap r).1 (t.refreshRecordMetadata heap r).2 := by
  unfold refreshRecordMetadata
  dsimp only
  have hproto := refreshDirection_refreshes t heap
    { r with protocol := r.protocol.or ((r.obj heap).bind streamProtocol) }
  have hd : Refreshes t heap r
      (t.refreshDirection { r with protocol := r.protocol.or ((r.obj heap).bind streamProtocol) } (r.obj heap)).1
      (t.refreshDirection { r with protocol := r.protocol.or ((r.obj heap).bind streamProtocol) } (r.obj heap)).2 :=
    ⟨hproto.direction, hproto.net, hproto.peers, hproto.network, hproto.suspected⟩
  generalize t.refreshDirection { r with protocol := r.protocol.or ((r.obj heap).bind streamProtocol) }
    (r.obj heap) = p at hd ⊢
  have hmove (f : PeerStreamStats → PeerStreamStats) : Refreshes t heap r (p.1.atPeer r.peerId f) p.2 := by
    refine ⟨hd.direction, fun d h => ?_, fun q => (peers_atPeer ..).trans (hd.peers q),
      (network_atPeer ..).trans hd.network, hd.suspected⟩
    rw [net_atPeer]
    exact hd.net d h
  split
  · split_ifs
    · exact (hmove _).countProtocol
    · exact hd.countProtocol
  · exact hd.countProtocol

theorem active_set (hget : t.streams.get? key = some r) (r' : StreamRecord)
    (hs : u.streams = t.streams.set key r') (d : Direction) :
    u.active d + (if r.direction = d then 1 else 0) = t.active d + if r'.direction = d then 1 else 0 := by
  have hset := Dict.countP_set (fun r => decide (r.direction = d)) t.streams key r'
  simp only [Dict.countAt, hget, Option.any_some, decide_eq_true_eq] at hset
  rw [active, hs]
  exact hset

theorem active_erase (hget : t.streams.get? key = some r) (hs : u.streams = t.streams.erase key)
    (d : Direction) : u.active d + (if r.direction = d then 1 else 0) = t.active d := by
  have herase := Dict.countP_erase (fun r => decide (r.direction = d)) t.streams key
  simp only [Dict.countAt, hget, Option.any_some, decide_eq_true_eq] at herase
  rw [active, hs]
  exact herase

theorem refreshed_known (hd : d ≠ .unknown) (heap : Heap) (r : StreamRecord) :
    (if refreshedDirection heap r = d then 1 else 0 : ℤ) =
      (if r.direction = d then 1 else 0) + if Learns heap r d then 1 else 0 := by
  by_cases hu : r.direction = .unknown
  · simp [Learns, hu, Ne.symm hd]
  · simp [Learns, refreshedDirection, hu]

/-- The direction becomes known, but the peer has no stats: it is never counted as opened. -/
def Forgets (t : Tracker) (heap : Heap) (r : StreamRecord) (d : Direction) : Prop :=
  Learns heap r d ∧ r.peerId ∉ t.peerStreamStats.keys

instance (t : Tracker) (heap : Heap) (r : StreamRecord) (d : Direction) : Decidable (Forgets t heap r d) :=
  inferInstanceAs (Decidable (_ ∧ _))

theorem Refreshes.net_eq {r' : StreamRecord} (h : Refreshes t heap r u r') (hd : d ≠ .unknown) :
    u.net d = t.net d + (if Learns heap r d then 1 else 0) - if Forgets t heap r d then 1 else 0 := by
  rw [h.net d hd]
  by_cases hp : r.peerId ∈ t.peerStreamStats.keys
  · simp [Forgets, hp]
  · simp [Forgets, hp]

theorem refreshAt_drift (hd : d ≠ .unknown) (hget : t.streams.get? key = some r) :
    (t.refreshAt heap key r).1.drift d = t.drift d - if Forgets t heap r d then 1 else 0 := by
  have href := refreshRecordMetadata_refreshes t heap r
  have hframe := (refreshRecordMetadata_frame t heap r).1.streams
  have hactive := active_set (u := (t.refreshAt heap key r).1) hget
    (t.refreshRecordMetadata heap r).2 (by rw [refreshAt, hframe]) d
  have hnet : (t.refreshAt heap key r).1.net d = (t.refreshRecordMetadata heap r).1.net d := by
    cases d <;> rfl
  have hknown := refreshed_known hd heap r
  rw [href.direction] at hactive
  zify at hactive
  rw [drift, drift, hnet, href.net_eq hd]
  linarith

theorem countStreamClosed_net (hd : d ≠ .unknown) (t : Tracker) (r : StreamRecord) (key : String) (now : ℚ)
    (duration : Option ℚ) : (t.countStreamClosed r key now duration).net d =
      t.net d - if r.direction = d then 1 else 0 := by
  have hcount := net_countClosed hd (t.withPeer r.peerId (·.closed r.direction r.wasReset)) r.direction
  cases duration <;> cases d <;> exact hcount

theorem countStreamClosed_peers (t : Tracker) (r : StreamRecord) (key : String) (now : ℚ)
    (duration : Option ℚ) (p : String) : p ∈ (t.countStreamClosed r key now duration).peerStreamStats.keys ↔
      p = r.peerId ∨ p ∈ t.peerStreamStats.keys := by
  have hwith := peers_withPeer t r.peerId (·.closed r.direction r.wasReset) p
  have hclosed (v : Tracker) : (v.countClosed r.direction).peerStreamStats = v.peerStreamStats := by
    cases r.direction <;> rfl
  rw [← hclosed] at hwith
  cases duration <;> exact hwith

theorem finalizeRecord_drift (heap : Heap) (now : ℚ) (hd : d ≠ .unknown) {r' : StreamRecord}
    (hget : t.streams.get? key = some r') (hdir : r'.direction = r.direction) :
    (t.finalizeRecord heap key r now).1.drift d = t.drift d := by
  unfold finalizeRecord
  split
  · rfl
  · next reset _ =>
    have hactive := active_erase (u := { t with streams := t.streams.erase key }.countStreamClosed
      { r with wasReset := r.wasReset || reset } key now
      (if 0 < r.openedAt then some (now - r.openedAt) else none)) hget (countStreamClosed_streams ..) d
    have hnet := countStreamClosed_net hd { t with streams := t.streams.erase key }
      { r with wasReset := r.wasReset || reset } key now
      (if 0 < r.openedAt then some (now - r.openedAt) else none)
    have hsame : ({ t with streams := t.streams.erase key } : Tracker).net d = t.net d := by
      cases d <;> rfl
    rw [hsame] at hnet
    rw [hdir] at hactive
    dsimp only at hnet ⊢
    rw [drift, drift, hnet]
    split_ifs at hactive ⊢ <;> omega

theorem pruneLoop_drift (heap : Heap) (now : ℚ) (hd : d ≠ .unknown) (connId : ObjId) (muxedId : Option ObjId)
    {rest : List (String × StreamRecord)} (hahead : Ahead t rest) :
    (pruneLoop heap now connId muxedId rest t).1.drift d = t.drift d := by
  apply hahead.pruneLoop (P := fun u => u.drift d = t.drift d) _ connId muxedId rfl
  intro u key r hget hu
  exact (finalizeRecord_drift heap now hd hget rfl).trans hu

def Counted (heap : Heap) (peers : List String) (r : StreamRecord) : Prop :=
  ∀ d, d ≠ .unknown → Learns heap r d → r.peerId ∈ peers

theorem Counted.congr {peers peers' : List String} (h : ∀ p, p ∈ peers ↔ p ∈ peers') :
    Counted heap peers r ↔ Counted heap peers' r := by
  simp only [Counted, h]

/-- No direction drifts upwards, and none drifts at all exactly under the condition. -/
structure Falls (t u : Tracker) (C : Prop) : Prop where
  le : ∀ d, d ≠ .unknown → u.drift d ≤ t.drift d
  eq_iff : (∀ d, d ≠ .unknown → u.drift d = t.drift d) ↔ C

namespace Falls

variable {v : Tracker} {C D : Prop}

theorem of_eq (h : ∀ d, d ≠ .unknown → u.drift d = t.drift d) : Falls t u True :=
  ⟨fun d hd => (h d hd).le, iff_true_intro h⟩

theorem trans (h : Falls t u C) (k : Falls u v D) : Falls t v (C ∧ D) := by
  refine ⟨fun d hd => (k.le d hd).trans (h.le d hd), ?_⟩
  rw [← h.eq_iff, ← k.eq_iff]
  constructor
  · intro heq
    have hmid (d : Direction) (hd : d ≠ .unknown) : u.drift d = t.drift d :=
      le_antisymm (h.le d hd) ((heq d hd).symm.le.trans (k.le d hd))
    exact ⟨hmid, fun d hd => (heq d hd).trans (hmid d hd).symm⟩
  · rintro ⟨hmid, hlast⟩ d hd
    exact (hlast d hd).trans (hmid d hd)

theorem congr (h : Falls t u C) (hCD : C ↔ D) : Falls t u D := ⟨h.le, h.eq_iff.trans hCD⟩

theorem balance_iff (h : Falls t u C) (ht : TotalsBalance t) : TotalsBalance u ↔ C := by
  rw [totalsBalance_iff] at ht ⊢
  rw [← h.eq_iff]
  exact forall₂_congr fun d hd => by rw [ht d hd]

end Falls

theorem falls_of_forgets {u : Tracker} (h : ∀ d, d ≠ .unknown →
    u.drift d = t.drift d - if Forgets t heap r d then 1 else 0) :
    Falls t u (Counted heap t.peerStreamStats.keys r) := by
  have hforgets (d : Direction) (hd : d ≠ .unknown) : u.drift d = t.drift d ↔ ¬Forgets t heap r d := by
    rw [h d hd]
    split_ifs with hf
    · simp [hf]
    · simp [hf]
  constructor
  · intro d hd
    rw [h d hd]
    split_ifs <;> omega
  · refine forall₂_congr fun d hd => ?_
    rw [hforgets d hd, Forgets, not_and, not_not]

theorem refreshAt_falls (heap : Heap) (hget : t.streams.get? key = some r) :
    Falls t (t.refreshAt heap key r).1 (Counted heap t.peerStreamStats.keys r) :=
  falls_of_forgets fun _ hd => refreshAt_drift hd hget

theorem refreshLoop_falls (heap : Heap) {rest : List (String × StreamRecord)} (hahead : Ahead t rest) :
    Falls t (refreshLoop heap rest t) (∀ e ∈ rest, Counted heap t.peerStreamStats.keys e.2) := by
  induction rest generalizing t with
  | nil => exact (Falls.of_eq fun _ _ => rfl).congr (by simp)
  | cons e rest ih =>
    obtain ⟨key, r⟩ := e
    have hget : t.streams.get? key = some r := hahead.2 _ List.mem_cons_self
    have hpeers := (refreshRecordMetadata_refreshes t heap r).peers
    have hrest := ih (hahead.next (refreshAt_touched heap hget).1.others)
    refine ((refreshAt_falls heap hget).trans hrest).congr ?_
    rw [List.forall_mem_cons]
    exact and_congr_right fun _ => forall₂_congr fun e _ => Counted.congr hpeers

def Finalizes (heap : Heap) (live : LiveTable) (hasNetwork : Bool) (r : StreamRecord) : Bool :=
  recordStreamDead (r.obj heap) ||
    (hasNetwork && recordConnectionGone r.peerId (r.obj heap) live.ids live.peers)

def SweepCounts (heap : Heap) (now threshold : ℚ) (live : LiveTable) (hasNetwork : Bool) :
    List String → List (String × StreamRecord) → Prop
  | _, [] => True
  | peers, (_, r) :: rest =>
    Counted heap peers r ∧
      if Finalizes heap live hasNetwork r then
        (∃ reset, readReset (r.obj heap) = .ok reset) →
          SweepCounts heap now threshold live hasNetwork (r.peerId :: peers) rest
      else if r.suspectedLeak = false ∧ threshold < now - r.openedAt then
        SweepCounts heap now threshold live hasNetwork (r.peerId :: peers) rest
      else SweepCounts heap now threshold live hasNetwork peers rest

theorem finalizeRecord_peers {reset : Bool} (hr : readReset (r.obj heap) = .ok reset) (t : Tracker)
    (key : String) (now : ℚ) (p : String) : p ∈ (t.finalizeRecord heap key r now).1.peerStreamStats.keys ↔
      p = r.peerId ∨ p ∈ t.peerStreamStats.keys := by
  simp only [finalizeRecord, hr]
  exact countStreamClosed_peers { t with streams := t.streams.erase key }
    { r with wasReset := r.wasReset || reset } key now _ p

theorem finalizeRecord_network (t : Tracker) (heap : Heap) (key : String) (r : StreamRecord) (now : ℚ) :
    (t.finalizeRecord heap key r now).1.hasNetwork = t.hasNetwork := by
  unfold finalizeRecord
  split
  · rfl
  · cases r.direction <;> dsimp only <;> split_ifs <;> rfl

theorem flagLeak_drift (hget : t.streams.get? key = some r) (d : Direction) :
    (t.flagLeak key r).1.drift d = t.drift d := by
  have hactive := active_set (u := (t.flagLeak key r).1) hget { r with suspectedLeak := true } rfl d
  have hnet : (t.flagLeak key r).1.net d = t.net d := by
    cases d <;> rfl
  rw [drift, drift, hnet, Nat.add_right_cancel hactive]

theorem leakLoop_falls (heap : Heap) (now threshold : ℚ) (live : LiveTable) {hasNetwork : Bool}
    (peers : List String) {rest : List (String × StreamRecord)} (leaked : List StreamRecord)
    (hahead : Ahead t rest) (hpeers : ∀ p, p ∈ peers ↔ p ∈ t.peerStreamStats.keys)
    (hnet : t.hasNetwork = hasNetwork) : Falls t (leakLoop heap now threshold live rest t leaked).1
      (SweepCounts heap now threshold live hasNetwork peers rest) := by
  induction rest generalizing t leaked peers with
  | nil => exact (Falls.of_eq fun _ _ => rfl).congr (by simp [SweepCounts])
  | cons e rest ih =>
    obtain ⟨key, r⟩ := e
    have hget : t.streams.get? key = some r := hahead.2 _ List.mem_cons_self
    have href := refreshRecordMetadata_refreshes t heap r
    obtain ⟨htouch, hsame, hget'⟩ := refreshAt_touched heap hget
    have hstep := (refreshAt_falls heap hget).congr (Counted.congr fun p => (hpeers p).symm)
    have hpeers' : ∀ p, p ∈ peers ↔ p ∈ (t.refreshAt heap key r).1.peerStreamStats.keys :=
      fun p => (hpeers p).trans (href.peers p).symm
    have hnet' : (t.refreshAt heap key r).1.hasNetwork = hasNetwork := href.network.trans hnet
    have hsusp : (t.refreshAt heap key r).2.suspectedLeak = r.suspectedLeak := href.suspected
    obtain ⟨-, hpeer, hopened, href'⟩ := hsame
    have hobj : (t.refreshAt heap key r).2.obj heap = r.obj heap := by
      rw [StreamRecord.obj, StreamRecord.obj, href']
    rw [leakLoop, SweepCounts]
    generalize t.refreshAt heap key r = p at *
    dsimp only
    rw [hobj, hpeer, hopened, hsusp, hnet']
    have hcond : (recordStreamDead (r.obj heap) ||
        (hasNetwork && recordConnectionGone r.peerId (r.obj heap) live.ids live.peers)) =
          Finalizes heap live hasNetwork r := rfl
    rw [hcond]
    refine hstep.trans ?_
    split_ifs with hfinal hflag
    · have hfin (d : Direction) (hd : d ≠ .unknown) :=
        finalizeRecord_drift heap now hd (r := p.2) hget' rfl
      have hok := finalizeRecord_ok_iff heap now p.1 key p.2
      have hnetwork := finalizeRecord_network p.1 heap key p.2 now
      split
      · next v _ hres =>
        rw [hres] at hfin hok hnetwork
        have hread := hok.mp rfl
        obtain ⟨reset, hreset⟩ := hread
        have hfpeers := finalizeRecord_peers hreset p.1 key now
        rw [hres] at hfpeers
        have hrest := ih (r.peerId :: peers) leaked (hahead.finalized htouch.others hres)
          (fun q => by rw [List.mem_cons, hfpeers q, hpeer, hpeers']) (hnetwork.trans hnet')
        refine ((Falls.of_eq hfin).trans hrest).congr ?_
        rw [true_and, hobj] at *
        exact ⟨fun h _ => h, fun h => h ⟨reset, hreset⟩⟩
      · next v e hres =>
        rw [hres] at hfin hok
        refine (Falls.of_eq hfin).congr ?_
        rw [hobj] at hok
        simp only [reduceCtorEq, false_iff] at hok
        exact iff_of_true trivial fun h => absurd h hok
    · have hrest := ih (r.peerId :: peers) (leaked ++ [(p.1.flagLeak key p.2).2])
        (hahead.next (htouch.trans (flagLeak_touched hget')).others)
        (fun q => by
          rw [List.mem_cons, ← hpeer, hpeers']
          exact (peers_withPeer _ p.2.peerId (·.suspectLeak) q).symm) hnet'
      exact ((Falls.of_eq fun d _ => flagLeak_drift hget' d).trans hrest).congr (by rw [true_and])
    · exact ih peers leaked (hahead.next htouch.others) hpeers' hnet'

theorem net_serveStream (t : Tracker) (muxedId : ObjId) (protocol : Option String) :
    (t.serveStream muxedId protocol).net = t.net := by
  unfold serveStream
  split <;> rfl

theorem openedStream_totals (hd : d ≠ .unknown) (t : Tracker) (now : ℚ) (ref : StreamRef) (stream : StreamObj) :
    ∃ r : StreamRecord, r.direction = streamDirection stream ∧
      (t.openedStream now ref stream).1.streams = t.streams.set (streamKey stream) r ∧
      (t.openedStream now ref stream).1.net d = t.net d + if r.direction = d then 1 else 0 := by
  let r : StreamRecord :=
    { key := streamKey stream, peerId := orUnknown (streamPeerId stream), openedAt := now
      streamRef := some ref, protocol := streamProtocol stream, direction := streamDirection stream
      streamId := streamId stream }
  let v := { t.seen with streams := t.streams.set r.key r }.withPeer r.peerId (·.opened r.direction r.protocol)
  have hcount : ({ v.countOpened r.direction with
      counters.opened := (v.countOpened r.direction).counters.opened + 1 } : Tracker).net d =
        t.net d + if r.direction = d then 1 else 0 := by
    have hv : v.net d = t.net d := by cases d <;> rfl
    rw [← hv, ← net_countOpened hd]
    cases d <;> rfl
  have hstreams := (Frame.countOpened v r.direction).streams
  refine ⟨r, rfl, ?_, ?_⟩
  · unfold openedStream
    dsimp only
    split
    · exact hstreams
    · exact hstreams
    · exact (serveStream_frame _ _ _).streams.trans hstreams
  · unfold openedStream
    dsimp only
    split
    · exact hcount
    · exact hcount
    · rw [net_serveStream]
      exact hcount

theorem openedStream_balance_iff (ht : TotalsBalance t) (ref : StreamRef) (stream : StreamObj) :
    TotalsBalance (t.openedStream now ref stream).1 ↔
      ∀ r, t.streams.get? (streamKey stream) = some r → r.direction = .unknown := by
  rw [totalsBalance_iff] at ht ⊢
  have hdrift (d : Direction) (hd : d ≠ .unknown) : (t.openedStream now ref stream).1.drift d =
      Dict.countAt (fun r : StreamRecord => decide (r.direction = d)) t.streams (streamKey stream) := by
    obtain ⟨r, -, hstreams, hnet⟩ := openedStream_totals hd t now ref stream
    have hset := Dict.countP_set (fun r => decide (r.direction = d)) t.streams (streamKey stream) r
    have hzero := ht d hd
    simp only [decide_eq_true_eq] at hset
    rw [drift, hnet, active, hstreams]
    rw [drift, active] at hzero
    split_ifs at hset ⊢ <;> omega
  constructor
  · intro h r hr
    by_contra hd
    have hone := (hdrift r.direction hd).symm.trans (h r.direction hd)
    simp [Dict.countAt, hr] at hone
  · intro h d hd
    rw [hdrift d hd, Dict.countAt, if_neg]
    · rfl
    · intro hany
      obtain ⟨r, hr, hrd⟩ := (Option.any_eq_true _ _).mp hany
      exact hd ((decide_eq_true_eq.mp hrd).symm.trans (h r hr))

variable (now) in
theorem closeRecord_net (hd : d ≠ .unknown) {stream : StreamObj} {reset : Bool}
    (he : readReset (some stream) = .ok reset) (t : Tracker) (r : StreamRecord) :
    (t.closeRecord now stream r).1.net d = t.net d - if r.direction = d then 1 else 0 := by
  have hcount := countStreamClosed_net hd t { r with
    closedAt := some now
    duration := if 0 < r.openedAt then some (now - r.openedAt) else none
    wasReset := r.wasReset || reset } (streamKey stream) now
    (if 0 < r.openedAt then some (now - r.openedAt) else none)
  simp only [closeRecord, he]
  rw [apply_ite Prod.fst, ite_self, ← hcount]
  cases d <;> rfl

/-- A close that can read `_state` counts the record in the direction that the refresh gives it; one
that cannot has only taken the record out of the table. -/
def ClosesCounted (t : Tracker) (heap : Heap) (stream : StreamObj) (r : StreamRecord) : Prop :=
  match readReset (some stream) with
  | .ok _ => Counted heap t.peerStreamStats.keys r
  | .error _ => r.direction = .unknown ∧
    ∀ d, d ≠ .unknown → Learns heap r d → r.peerId ∉ t.peerStreamStats.keys

theorem closedStream_balance_iff {stream : StreamObj} (ht : TotalsBalance t)
    (hget : t.streams.get? (streamKey stream) = some r) :
    TotalsBalance (t.closedStream now heap stream).1 ↔ ClosesCounted t heap stream r := by
  let v : Tracker := { t.seen with streams := t.streams.erase (streamKey stream) }
  have hv (d : Direction) : v.net d = t.net d := by cases d <;> rfl
  have href := refreshRecordMetadata_refreshes v heap r
  have hframe := (refreshRecordMetadata_frame v heap r).1.streams
  rw [closedStream_record hget, ClosesCounted]
  cases hr : readReset (some stream) with
  | ok reset =>
    refine Falls.balance_iff (falls_of_forgets fun d hd => ?_) ht
    have hnet := closeRecord_net now hd hr (v.refreshRecordMetadata heap r).1
      (v.refreshRecordMetadata heap r).2
    obtain ⟨r', dur, -, hclose⟩ := closeRecord_ok now hr (v.refreshRecordMetadata heap r).1
      (v.refreshRecordMetadata heap r).2
    have hactive := active_erase hget ((hclose.streams.trans (countStreamClosed_streams ..)).trans hframe) d
    have hknown := refreshed_known hd heap r
    have hopened : (v.refreshRecordMetadata heap r).1.net d =
        t.net d + (if Learns heap r d then 1 else 0) - if Forgets t heap r d then 1 else 0 := by
      rw [href.net_eq hd, hv]
      rfl
    rw [href.direction, hopened] at hnet
    zify at hactive
    rw [drift, drift, hnet]
    linarith
  | error e =>
    rw [closeRecord_error hr, totalsBalance_iff]
    rw [totalsBalance_iff] at ht
    have hrises (d : Direction) (hd : d ≠ .unknown) : (v.refreshRecordMetadata heap r).1.drift d =
        (if r.direction = d then 1 else 0) +
          if Learns heap r d ∧ r.peerId ∈ t.peerStreamStats.keys then 1 else 0 := by
      have hactive := active_erase hget hframe d
      have hzero := ht d hd
      have hopened : (v.refreshRecordMetadata heap r).1.net d =
          t.net d + if Learns heap r d ∧ r.peerId ∈ t.peerStreamStats.keys then 1 else 0 := by
        rw [href.net d hd, hv]
        rfl
      zify at hactive
      rw [drift] at hzero
      rw [drift, hopened]
      linarith
    constructor
    · intro h
      have hterms (d : Direction) (hd : d ≠ .unknown) :
          r.direction ≠ d ∧ ¬(Learns heap r d ∧ r.peerId ∈ t.peerStreamStats.keys) := by
        have hsum := (hrises d hd).symm.trans (h d hd)
        split_ifs at hsum with h1 h2 h2
        · omega
        · omega
        · omega
        · exact ⟨h1, h2⟩
      refine ⟨?_, fun d hd hl hp => (hterms d hd).2 ⟨hl, hp⟩⟩
      by_contra hu
      exact (hterms r.direction hu).1 rfl
    · rintro ⟨hu, hpeer⟩ d hd
      rw [hrises d hd, if_neg (by rw [hu]; exact Ne.symm hd), if_neg fun h => hpeer d hd h.1 h.2]
      rfl

theorem closedStream_unknown_drift {stream : StreamObj} (hget : t.streams.get? (streamKey stream) = none)
    (hd : d ≠ .unknown) : (t.closedStream now heap stream).1.drift d = t.drift d := by
  have hseen : t.seen.streams.get? (streamKey stream) = none := hget
  have hdrift : t.seen.drift d = t.drift d := by cases d <;> rfl
  cases hfin : t.seen.finalizedKeys.get? (streamKey stream) with
  | some at' => simpa [closedStream, hseen, hfin] using hdrift
  | none =>
    let r : StreamRecord :=
      { key := streamKey stream, peerId := orUnknown (streamPeerId stream), openedAt := 0
        streamRef := none }
    have hclosed : (t.closedStream now heap stream).1 = (t.seen.closeRecord now stream r).1 := by
      simp [closedStream, takeRecord, hseen, hfin, r]
    rw [hclosed]
    cases hr : readReset (some stream) with
    | error e => rwa [closeRecord_error hr]
    | ok reset =>
      obtain ⟨r', dur, -, hclose⟩ := closeRecord_ok now hr t.seen r
      have hnet := closeRecord_net now hd hr t.seen r
      rw [if_neg (Ne.symm hd), sub_zero] at hnet
      rw [← hdrift]
      exact drift_congr (hclose.streams.trans (countStreamClosed_streams ..)) hnet

theorem net_popMeta (t : Tracker) (peerId : String) (k : ObjId) : (t.popMeta peerId k).net = t.net := by
  unfold popMeta
  split
  · split_ifs <;> rfl
  · rfl

theorem dropConnection_drift (t : Tracker) (nowTs peerId : String) (connId : ObjId) (muxedId : Option ObjId)
    (d : Direction) : (t.dropConnection nowTs peerId connId muxedId).drift d = t.drift d := by
  apply drift_congr (dropConnection_frame t nowTs peerId connId muxedId).streams
  cases muxedId with
  | none =>
    rw [← net_popMeta t peerId connId]
    cases d <;> rfl
  | some m =>
    rw [← net_popMeta t peerId connId, ← net_popMeta (t.popMeta peerId connId) peerId m]
    cases d <;> rfl

theorem enforce_drift (t : Tracker) (now : ℚ) (d : Direction) :
    (t.enforceStatsCapacity now).drift d = t.drift d := by
  apply drift_congr (enforce_streams t now)
  unfold enforceStatsCapacity
  dsimp only
  split_ifs <;> cases d <;> rfl

theorem disconnected_drift (t : Tracker) (now : ℚ) (nowTs : String) (heap : Heap) (conn : ConnObj)
    (hd : d ≠ .unknown) : (t.disconnected now nowTs heap conn).1.drift d = t.drift d := by
  have hseen : t.seen.drift d = t.drift d := by cases d <;> rfl
  unfold disconnected
  dsimp only
  split
  · exact hseen
  · exact hseen
  · next pid muxedId _ _ =>
    have hdrop := dropConnection_drift t.seen nowTs (orUnknown pid) conn.id muxedId d
    have hahead := ahead_entries (t.seen.dropConnection nowTs (orUnknown pid) conn.id muxedId)
    generalize t.seen.dropConnection nowTs (orUnknown pid) conn.id muxedId = u at hdrop hahead ⊢
    have hloop := pruneLoop_drift heap now hd conn.id muxedId hahead
    unfold pruneStreams
    split
    · next v e hres =>
      rw [hres] at hloop
      exact hloop.trans (hdrop.trans hseen)
    · next v _ hres =>
      rw [hres] at hloop
      dsimp only
      split_ifs
      · exact (enforce_drift v now d).trans (hloop.trans (hdrop.trans hseen))
      · exact hloop.trans (hdrop.trans hseen)

theorem connected_drift (t : Tracker) (now : ℚ) (nowTs : String) (conn : ConnObj) (d : Direction) :
    (t.connected now nowTs conn).1.drift d = t.drift d := by
  apply drift_congr (connected_frame t now nowTs conn).streams
  unfold connected
  dsimp only
  split
  · cases d <;> rfl
  · split <;> cases d <;> rfl

/-- A stream is opened over no record of a known direction, and whenever a refresh makes a direction
known, the peer has stats. -/
def CountsDirections (t : Tracker) : Call → Prop
  | .openedStream _ _ stream =>
    ∀ r, t.streams.get? (streamKey stream) = some r → r.direction = .unknown
  | .closedStream _ heap stream =>
    ∀ r, t.streams.get? (streamKey stream) = some r → ClosesCounted t heap stream r
  | .checkForLeaks now threshold heap live =>
    SweepCounts heap now threshold (if t.hasNetwork then live else ⟨[], []⟩) t.hasNetwork
      t.peerStreamStats.keys t.streams.entries
  | .streamStatsSnapshot heap => ∀ e ∈ t.streams.entries, Counted heap t.peerStreamStats.keys e.2
  | .connected .. | .disconnected .. => True

theorem exec_balance_iff {call : Call} (ht : TotalsBalance t) :
    TotalsBalance (t.exec call) ↔ CountsDirections t call := by
  cases call with
  | openedStream now ref stream => exact openedStream_balance_iff ht ref stream
  | closedStream now heap stream =>
    cases hget : t.streams.get? (streamKey stream) with
    | none =>
      have hfalls : Falls t (t.exec (.closedStream now heap stream)) True :=
        .of_eq fun d hd => closedStream_unknown_drift hget hd
      rw [hfalls.balance_iff ht]
      simp [CountsDirections, hget]
    | some r =>
      refine (closedStream_balance_iff ht hget).trans ?_
      simp [CountsDirections, hget]
  | connected now nowTs conn =>
    exact (Falls.of_eq fun d _ => connected_drift t now nowTs conn d).balance_iff ht
  | disconnected now nowTs heap conn =>
    exact (Falls.of_eq fun d hd => disconnected_drift t now nowTs heap conn hd).balance_iff ht
  | checkForLeaks now threshold heap live =>
    exact (leakLoop_falls heap now threshold _ t.peerStreamStats.keys [] (ahead_entries t)
      (fun _ => Iff.rfl) rfl).balance_iff ht
  | streamStatsSnapshot heap => exact (refreshLoop_falls heap (ahead_entries t)).balance_iff ht

theorem init_balance : TotalsBalance init := ⟨rfl, rfl⟩

/-- The runs that stay balanced are the ones whose calls all count the directions; a snapshot is one
of the calls. -/
theorem directionTotals_iff (calls : List Call) (t : Tracker) :
    Run (fun t call u => u = t.exec call ∧ TotalsBalance u) init calls t ↔
      Run (fun t call u => u = t.exec call ∧ CountsDirections t call) init calls t := by
  apply Run.congr_of_invariant (P := TotalsBalance)
  · exact fun _ _ _ _ h => h.2
  · rintro t call u ht
    apply and_congr_right
    rintro rfl
    exact exec_balance_iff ht
  · exact init_balance

theorem directionTotals_fails :
    ¬∀ (calls : List Call) (heap : Heap) (t : Tracker),
      Run (fun t call u => u = t.exec call) init (calls ++ [.streamStatsSnapshot heap]) t →
        TotalsBalance t := by
  intro h
  let calls : List Call := [.openedStream 1 0 (sampleStream 10), .openedStream 2 1 (sampleStream 10)]
  have hrun : Run (fun t call u => u = t.exec call) init
      (calls ++ [Call.streamStatsSnapshot fun _ => none])
      ((calls ++ [Call.streamStatsSnapshot fun _ => none]).foldl exec init) :=
    .head rfl (.head rfl (.single rfl))
  have hbalance := (h calls _ _ hrun).1
  revert hbalance
  decide +kernel

end IpfsLite.Tracker
