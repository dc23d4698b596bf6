import IpfsLite.TrackerCapacity
import IpfsLite.TrackerCounts

namespace IpfsLite.Tracker

open Runs

def PeerStreamStats.protocolCount (s : PeerStreamStats) : ProtocolCount := ⟨s.byProtocol, s.totalOpened⟩

def protocolCounts (t : Tracker) : Counts := fun p => (t.peerStreamStats.get? p).map (·.protocolCount)

structure Partitioned (t : Tracker) : Prop where
  positive : ∀ e ∈ t.peerStreamStats.entries, ∀ b ∈ e.2.byProtocol.entries, 0 < b.2
  sum : ∀ e ∈ t.peerStreamStats.entries, (e.2.byProtocol.entries.map Prod.snd).sum = e.2.totalOpened

def leakTurn (heap : Heap) (now threshold : ℚ) (live : LiveTable) (hasNetwork : Bool) (r : StreamRecord) : Turn :=
  if Finalizes heap live hasNetwork r then
    match readReset (r.obj heap) with
    | .ok _ => .creates
    | .error _ => .ends
  else if r.suspectedLeak = false ∧ threshold < now - r.openedAt then .creates
  else .keeps

def LearnsBacked (t : Tracker) : Call → Prop
  | .closedStream _ heap stream => ∀ r, t.streams.get? (streamKey stream) = some r →
      Backs heap r (t.protocolCounts.unknown r.peerId)
  | .checkForLeaks now threshold heap live =>
    Backed heap (leakTurn heap now threshold live t.hasNetwork) (t.streams.entries.map Prod.snd)
      t.protocolCounts.unknown
  | .streamStatsSnapshot heap =>
    Backed heap (fun _ => .keeps) (t.streams.entries.map Prod.snd) t.protocolCounts.unknown
  | .openedStream .. | .connected .. | .disconnected .. => True

variable {t u : Tracker} {now threshold : ℚ} {live : LiveTable} {key : String}

theorem partitioned_iff : Partitioned t ↔ t.protocolCounts.Positive ∧ ∀ p, t.protocolCounts.excess p = 0 := by
  constructor
  · rintro ⟨hpos, hsum⟩
    refine ⟨fun p n hn proto k hk => ?_, fun p => ?_⟩
    · obtain ⟨s, hs, rfl⟩ := Option.map_eq_some_iff.mp hn
      exact hpos _ (Dict.get?_eq_some.mp hs) _ (Dict.get?_eq_some.mp hk)
    · unfold Counts.excess protocolCounts
      cases hs : t.peerStreamStats.get? p with
      | none => rfl
      | some s =>
        have hzero := hsum _ (Dict.get?_eq_some.mp hs)
        exact sub_eq_zero.mpr (congrArg Nat.cast hzero)
  · rintro ⟨hpos, hsum⟩
    refine ⟨fun e he b hb => ?_, fun e he => ?_⟩
    · have hget : t.protocolCounts e.1 = some e.2.protocolCount := by
        rw [protocolCounts, Dict.get?_eq_some.mpr he, Option.map_some]
      exact hpos e.1 _ hget b.1 b.2 (Dict.get?_eq_some.mpr hb)
    · have hzero := hsum e.1
      rw [Counts.excess, protocolCounts, Dict.get?_eq_some.mpr he, Option.map_some, Option.map_some,
        Option.getD_some] at hzero
      exact Int.ofNat_inj.mp (sub_eq_zero.mp hzero)

theorem moveProtocol_count (s : PeerStreamStats) (proto : String) :
    (s.moveProtocol none proto).protocolCount = s.protocolCount.learn (some proto) := by
  have hold : orUnknown none = "unknown" := rfl
  unfold PeerStreamStats.moveProtocol ProtocolCount.learn PeerStreamStats.protocolCount
    ProtocolCount.takeUnknown ProtocolCount.unknown
  dsimp only
  rw [hold]
  congr 2
  by_cases hpos : 0 < (s.byProtocol.get? "unknown").getD 0
  · rw [if_pos hpos]
    simp only [Dict.get?_set, if_pos, Option.getD_some]
    by_cases hone : (s.byProtocol.get? "unknown").getD 0 ≤ 1
    · rw [if_pos hone, if_pos (by omega), Dict.erase_set]
    · rw [if_neg hone, if_neg (by omega)]
  · rw [if_neg hpos, if_pos (by omega), if_pos (by omega)]

theorem refresh_count (s : PeerStreamStats) (heap : Heap) (r : StreamRecord) :
    (s.refresh heap r).protocolCount = s.protocolCount.learn (learnedProtocol heap r) := by
  have hdir : (s.learnDirection heap r).protocolCount = s.protocolCount := by
    unfold PeerStreamStats.learnDirection
    split_ifs
    · cases refreshedDirection heap r <;> rfl
    · rfl
  unfold PeerStreamStats.refresh
  cases learnedProtocol heap r with
  | none => exact hdir
  | some proto =>
    rw [← hdir]
    exact moveProtocol_count _ proto

theorem closed_count (s : PeerStreamStats) (d : Direction) (reset : Bool) :
    (s.closed d reset).protocolCount = s.protocolCount := by
  cases d <;> rfl

theorem suspectLeak_count (s : PeerStreamStats) : s.suspectLeak.protocolCount = s.protocolCount := rfl

theorem refreshed_counts (t : Tracker) (heap : Heap) (key : String) (r : StreamRecord) :
    (t.refreshed heap key r).protocolCounts = t.protocolCounts.refresh heap r := by
  funext p
  rw [protocolCounts, refreshed_peers, Counts.refresh, Function.update_apply]
  split_ifs with hp
  · rw [hp, protocolCounts, Option.map_map, Option.map_map]
    refine congrArg (Option.map · _) (funext fun s => ?_)
    exact refresh_count s heap r
  · rfl

theorem refreshedPeer_count (t : Tracker) (heap : Heap) (r : StreamRecord) :
    (t.refreshedPeer heap r).protocolCount = ((t.protocolCounts.refresh heap r) r.peerId).getD {} := by
  rw [refreshedPeer, Counts.refresh, Function.update_self, protocolCounts]
  cases t.peerStreamStats.get? r.peerId with
  | none => rfl
  | some s => exact refresh_count s heap r

theorem create_counts (heap : Heap) (r : StreamRecord) {s : PeerStreamStats}
    (hs : s.protocolCount = (t.refreshedPeer heap r).protocolCount)
    (hu : ∀ q, u.peerStreamStats.get? q = if q = r.peerId then some s else t.peerStreamStats.get? q) :
    u.protocolCounts = (t.protocolCounts.refresh heap r).create r.peerId := by
  funext q
  rw [protocolCounts, hu, Counts.create, Function.update_apply]
  split_ifs with hq
  · rw [Option.map_some, hs, refreshedPeer_count]
  · rw [Counts.refresh, Function.update_of_ne hq]
    rfl

theorem leakLoop_counts (heap : Heap) (now threshold : ℚ) (live : LiveTable) (t : Tracker)
    (rest : List (String × StreamRecord)) (leaked : List StreamRecord) :
    (leakLoop heap now threshold live rest t leaked).1.protocolCounts =
      Counts.sweep heap (leakTurn heap now threshold live t.hasNetwork) (rest.map Prod.snd) t.protocolCounts := by
  apply leakLoop_induction heap now threshold live (motive := fun t rest _ result =>
    result.1.protocolCounts =
      Counts.sweep heap (leakTurn heap now threshold live t.hasNetwork) (rest.map Prod.snd) t.protocolCounts)
  · exact fun t _ => rfl
  · intro t key r rest leaked result hfin hread ih
    obtain ⟨d, reset, hpeers⟩ := reconciled_peers hread t now key
    obtain ⟨reset', hreset⟩ := hread
    rw [ih, reconciled_network, List.map_cons, Counts.sweep, leakTurn, if_pos hfin, hreset,
      create_counts heap r (closed_count _ d reset) hpeers]
  · intro t key r rest leaked e hfin he
    rw [List.map_cons, Counts.sweep, leakTurn, if_pos hfin, he]
    exact refreshed_counts t heap key r
  · intro t key r rest leaked result hfin hage ih
    have hage : r.suspectedLeak = false ∧ threshold < now - r.openedAt := hage
    rw [ih, flagged_network, List.map_cons, Counts.sweep, leakTurn, if_neg hfin, if_pos hage,
      create_counts heap r (suspectLeak_count _) (flagged_peers t heap key r)]
  · intro t key r rest leaked result hfin hage ih
    have hage : ¬(r.suspectedLeak = false ∧ threshold < now - r.openedAt) := hage
    rw [ih, refreshed_network, List.map_cons, Counts.sweep, leakTurn, if_neg hfin, if_neg hage, refreshed_counts]

theorem refreshLoop_counts (heap : Heap) (rest : List (String × StreamRecord)) (t : Tracker) :
    (refreshLoop heap rest t).protocolCounts =
      Counts.sweep heap (fun _ => .keeps) (rest.map Prod.snd) t.protocolCounts := by
  induction rest generalizing t with
  | nil => rfl
  | cons e rest ih =>
    have hrefreshed := refreshed_counts t heap e.1 e.2
    rw [refreshLoop, ih, List.map_cons, Counts.sweep, ← hrefreshed]
    rfl

theorem partitioned_congr (h : ∀ p, u.protocolCounts p = t.protocolCounts p) : Partitioned u ↔ Partitioned t := by
  rw [partitioned_iff, partitioned_iff, funext h]

theorem sweep_partitioned_iff {turn : StreamRecord → Turn} {rest : List StreamRecord} (ht : Partitioned t)
    (hu : u.protocolCounts = Counts.sweep heap turn rest t.protocolCounts) :
    Partitioned u ↔ Backed heap turn rest t.protocolCounts.unknown := by
  obtain ⟨hpos, hzero⟩ := partitioned_iff.mp ht
  obtain ⟨added, hadded, hbacked⟩ := Counts.sweep_adds heap turn rest t.protocolCounts
  rw [partitioned_iff, hu, and_iff_right (Counts.sweep_positive hpos turn rest), ← hbacked]
  refine forall_congr' fun p => ?_
  rw [hadded, hzero, zero_add]
  exact Nat.cast_eq_zero

theorem refreshRecord_partitioned_iff (ht : Partitioned t) (heap : Heap) (r : StreamRecord) :
    Partitioned (t.refreshRecordMetadata heap r).1 ↔ Backs heap r (t.protocolCounts.unknown r.peerId) := by
  have hcounts : (t.refreshRecordMetadata heap r).1.protocolCounts =
      Counts.sweep heap (fun _ => .keeps) [r] t.protocolCounts := refreshed_counts t heap "" r
  exact (sweep_partitioned_iff ht hcounts).trans (and_iff_left trivial)

theorem partitioned_create {p : String} (hu : u.protocolCounts = t.protocolCounts.create p) :
    Partitioned u ↔ Partitioned t := by
  have hpositive : (t.protocolCounts.create p).Positive ↔ t.protocolCounts.Positive := by
    refine ⟨fun h q n hn => ?_, fun h => Counts.create_positive h p⟩
    by_cases hq : q = p
    · apply h p
      rw [Counts.create, Function.update_self, ← hq, hn, Option.getD_some]
    · apply h q
      rw [Counts.create, Function.update_of_ne hq, hn]
  rw [partitioned_iff, partitioned_iff, hu, Counts.create_excess, hpositive]

theorem partitioned_mono (ht : Partitioned t)
    (h : ∀ p, u.protocolCounts p = none ∨ u.protocolCounts p = t.protocolCounts p) : Partitioned u := by
  obtain ⟨hpos, hzero⟩ := partitioned_iff.mp ht
  refine partitioned_iff.mpr ⟨fun p n hn => ?_, fun p => ?_⟩
  · apply hpos p
    rcases h p with hnone | hsame
    · rw [hnone] at hn
      contradiction
    · rw [← hsame, hn]
  · rcases h p with hnone | hsame
    · rw [Counts.excess, hnone]
      rfl
    · rw [Counts.excess, hsame]
      exact hzero p

theorem countStreamClosed_counts (t : Tracker) (r : StreamRecord) (key : String) (now : ℚ) (d : Option ℚ) :
    (t.countStreamClosed r key now d).protocolCounts = t.protocolCounts.create r.peerId := by
  have hwith (q : String) : (t.countStreamClosed r key now d).peerStreamStats.get? q =
      (t.withPeer r.peerId (·.closed r.direction r.wasReset)).peerStreamStats.get? q := by
    unfold countStreamClosed countClosed
    cases r.direction <;> cases d <;> rfl
  funext q
  rw [protocolCounts, hwith, withPeer_get?, Counts.create, Function.update_apply]
  split_ifs with hq
  · rw [Option.map_some, closed_count, protocolCounts]
    cases t.peerStreamStats.get? r.peerId <;> rfl
  · rfl

theorem closeRecord_partitioned_iff (t : Tracker) (now : ℚ) (stream : StreamObj) (r : StreamRecord) :
    Partitioned (t.closeRecord now stream r).1 ↔ Partitioned t := by
  unfold closeRecord
  dsimp only
  split
  · rfl
  · next reset _ =>
    rw [apply_ite Prod.fst, ite_self]
    apply partitioned_create
    exact countStreamClosed_counts t { r with
      closedAt := some now
      duration := if 0 < r.openedAt then some (now - r.openedAt) else none
      wasReset := r.wasReset || reset } (streamKey stream) now
      (if 0 < r.openedAt then some (now - r.openedAt) else none)

theorem finalizeRecord_partitioned_iff (t : Tracker) (heap : Heap) (key : String) (r : StreamRecord) (now : ℚ) :
    Partitioned (t.finalizeRecord heap key r now).1 ↔ Partitioned t := by
  unfold finalizeRecord
  split
  · rfl
  · exact partitioned_create (countStreamClosed_counts ..)

theorem enforce_partitioned (ht : Partitioned t) (now : ℚ) : Partitioned (t.enforceStatsCapacity now) := by
  apply partitioned_mono ht
  intro p
  by_cases hcap : t.stats.entries.length ≤ 500
  · rw [enforceStatsCapacity, if_pos hcap]
    exact .inr rfl
  · rw [protocolCounts, enforce_peers (by omega), Dict.get?_eraseAll]
    split_ifs
    · exact .inl rfl
    · exact .inr rfl

theorem seen_partitioned (ht : Partitioned t) : Partitioned t.seen := by
  have hsame (p : String) : t.seen.protocolCounts p = t.protocolCounts p := rfl
  exact (partitioned_congr hsame).mpr ht

theorem disconnected_partitioned (ht : Partitioned t) (now : ℚ) (nowTs : String) (heap : Heap) (conn : ConnObj) :
    Partitioned (t.disconnected now nowTs heap conn).1 := by
  unfold disconnected
  dsimp only
  split
  · exact seen_partitioned ht
  · exact seen_partitioned ht
  · next pid m _ _ =>
    have hcounts (p : String) : (t.seen.dropConnection nowTs (orUnknown pid) conn.id m).protocolCounts p =
        t.seen.protocolCounts p := by
      rw [protocolCounts, dropConnection_peers, protocolCounts]
    have hdrop := (partitioned_congr hcounts).mpr (seen_partitioned ht)
    have hprune := pruneLoop_preserves (fun u key r h => (finalizeRecord_partitioned_iff u heap key r now).mpr h)
      conn.id m (t.seen.dropConnection nowTs (orUnknown pid) conn.id m).streams.entries hdrop
    unfold pruneStreams
    split
    · next v e hres =>
      rw [hres] at hprune
      exact hprune
    · next v x hres =>
      rw [hres] at hprune
      dsimp only
      split_ifs
      · exact enforce_partitioned hprune now
      · exact hprune

theorem openedStream_peers (t : Tracker) (now : ℚ) (ref : StreamRef) (stream : StreamObj) :
    (t.openedStream now ref stream).1.peerStreamStats = (t.withPeer (orUnknown (streamPeerId stream))
      (·.opened (streamDirection stream) (streamProtocol stream))).peerStreamStats := by
  have hserve (v : Tracker) (k : ObjId) (proto : Option String) :
      (v.serveStream k proto).peerStreamStats = v.peerStreamStats := by
    unfold serveStream
    split <;> rfl
  unfold openedStream
  dsimp only
  split
  · exact peers_countOpened _ _
  · exact peers_countOpened _ _
  · rw [hserve]
    exact peers_countOpened _ _

theorem openedStream_counts (t : Tracker) (now : ℚ) (ref : StreamRef) (stream : StreamObj) (q : String) :
    (t.openedStream now ref stream).1.protocolCounts q = if q = orUnknown (streamPeerId stream) then
      some ⟨increment ((t.protocolCounts q).getD {}).byProtocol (orUnknown (streamProtocol stream)),
        ((t.protocolCounts q).getD {}).totalOpened + 1⟩
      else t.protocolCounts q := by
  rw [protocolCounts, openedStream_peers, withPeer_get?]
  split_ifs with hq
  · rw [protocolCounts, hq]
    cases t.peerStreamStats.get? (orUnknown (streamPeerId stream)) <;> cases streamDirection stream <;> rfl
  · rfl

theorem openedStream_partitioned (ht : Partitioned t) (now : ℚ) (ref : StreamRef) (stream : StreamObj) :
    Partitioned (t.openedStream now ref stream).1 := by
  have hcounts := openedStream_counts t now ref stream
  obtain ⟨hpos, hzero⟩ := partitioned_iff.mp ht
  have hc (p : String) : ((t.protocolCounts p).getD {}).Positive ∧ ((t.protocolCounts p).getD {}).excess = 0 := by
    have hp := hzero p
    unfold Counts.excess at hp
    cases hget : t.protocolCounts p with
    | none => exact ⟨fun _ _ h => by contradiction, rfl⟩
    | some n =>
      rw [hget] at hp
      exact ⟨hpos p n hget, hp⟩
  refine partitioned_iff.mpr ⟨fun q n hn => ?_, fun q => ?_⟩
  · rw [hcounts] at hn
    split_ifs at hn
    · obtain rfl := Option.some.inj hn
      exact positive_increment (hc q).1 _
    · exact hpos q n hn
  · rw [Counts.excess, hcounts]
    split_ifs
    · have hsum := sumBy_increment ((t.protocolCounts q).getD {}).byProtocol (orUnknown (streamProtocol stream))
      have hczero := (hc q).2
      rw [Option.map_some, Option.getD_some, ProtocolCount.excess]
      unfold ProtocolCount.excess at hczero
      dsimp only
      omega
    · exact hzero q

theorem closedStream_partitioned_iff (ht : Partitioned t) (now : ℚ) (heap : Heap) (stream : StreamObj) :
    Partitioned (t.closedStream now heap stream).1 ↔ LearnsBacked t (.closedStream now heap stream) := by
  have hseen := seen_partitioned ht
  have hstreams : t.seen.streams = t.streams := rfl
  unfold closedStream LearnsBacked
  dsimp only
  rw [hstreams]
  cases hget : t.streams.get? (streamKey stream) with
  | none =>
    refine iff_of_true ?_ fun r hr => by contradiction
    split_ifs
    · exact hseen
    · rw [closeRecord_partitioned_iff, takeRecord]
      simp only [hstreams, hget]
      exact hseen
  | some r =>
    let u : Tracker := { t.seen with streams := t.streams.erase (streamKey stream) }
    have hsame (p : String) : u.protocolCounts p = t.protocolCounts p := rfl
    have hu : Partitioned u := (partitioned_congr hsame).mpr ht
    have htake : t.seen.takeRecord heap stream = u.refreshRecordMetadata heap r := by
      simp only [takeRecord, hstreams, hget]
      rfl
    rw [if_neg (by simp), closeRecord_partitioned_iff, htake, refreshRecord_partitioned_iff hu]
    constructor
    · rintro h _ hr
      obtain rfl := Option.some.inj hr
      exact h
    · exact fun h => h r rfl

theorem exec_partitioned_iff (call : Call) (ht : Partitioned t) :
    Partitioned (t.exec call) ↔ LearnsBacked t call := by
  cases call with
  | openedStream now ref stream => exact iff_of_true (openedStream_partitioned ht now ref stream) trivial
  | closedStream now heap stream => exact closedStream_partitioned_iff ht now heap stream
  | connected now nowTs conn =>
    refine iff_of_true ((partitioned_congr fun p => ?_).mpr ht) trivial
    change (t.connected now nowTs conn).1.protocolCounts p = t.protocolCounts p
    unfold connected
    dsimp only
    split
    · rfl
    · split <;> rfl
  | disconnected now nowTs heap conn => exact iff_of_true (disconnected_partitioned ht now nowTs heap conn) trivial
  | checkForLeaks now threshold heap live =>
    apply sweep_partitioned_iff ht
    have hcounts := leakLoop_counts heap now threshold (if t.hasNetwork then live else ⟨[], []⟩) t
      t.streams.entries []
    refine hcounts.trans ?_
    have hturn : leakTurn heap now threshold (if t.hasNetwork then live else ⟨[], []⟩) t.hasNetwork =
        leakTurn heap now threshold live t.hasNetwork := by
      cases t.hasNetwork <;> rfl
    rw [hturn]
  | streamStatsSnapshot heap => exact sweep_partitioned_iff ht (refreshLoop_counts heap _ t)

theorem init_partitioned : Partitioned init :=
  ⟨fun _ he => absurd he List.not_mem_nil, fun _ he => absurd he List.not_mem_nil⟩

theorem protocols_partitioned_iff (calls : List Call) (t : Tracker) :
    Run (fun t call u => u = t.exec call ∧ Partitioned u) init calls t ↔
      Run (fun t call u => u = t.exec call ∧ LearnsBacked t call) init calls t := by
  apply Run.congr_of_invariant (P := Partitioned)
  · exact fun _ _ _ _ h => h.2
  · rintro t call u ht
    apply and_congr_right
    rintro rfl
    exact exec_partitioned_iff call ht
  · exact init_partitioned

def pingStream (id : ObjId) : StreamObj := { sampleStream id with getProtocol := .ok (some "/ping") }

/-- The first stream's protocol becomes known once the bucket it was in is gone. -/
theorem protocols_partitioned_fails :
    ¬∀ (calls : List Call) (t : Tracker), Run (fun t call u => u = t.exec call) init calls t → Partitioned t := by
  intro h
  obtain ⟨u, hrun, hcapped⟩ := exists_capped
  have hdropped := hrun.tail (a := .disconnected 3 "t3" earlyHeap earlyPeer.obj) rfl
  obtain ⟨hstreams, hpeers⟩ := hcapped.exec
  generalize u.exec (.disconnected 3 "t3" earlyHeap earlyPeer.obj) = w at hdropped hstreams hpeers
  have hopened := hdropped.tail (a := .openedStream 4 1 (pingStream 20)) rfl
  let heap : Heap := fun ref => some (pingStream (if ref = 0 then 10 else 20))
  have hbacked := (exec_partitioned_iff (.streamStatsSnapshot heap) (h _ _ hopened)).mp
    (h _ _ (hopened.tail rfl))
  obtain ⟨r, -, hset, -⟩ := openedStream_effect w 4 1 (pingStream 20)
  obtain ⟨first, hearly, hpeer, hlearned⟩ : ∃ first,
      earlyTracker.streams.entries = [(streamKey (sampleStream 10), first)] ∧
        first.peerId = "QmPeer" ∧ learnedProtocol heap first ≠ none :=
    ⟨_, rfl, by decide +kernel, by decide +kernel⟩
  have hentries : (w.openedStream 4 1 (pingStream 20)).1.streams.entries =
      [(streamKey (sampleStream 10), first), (streamKey (pingStream 20), r)] := by
    have hnot : streamKey (pingStream 20) ∉ earlyTracker.streams.keys := by decide +kernel
    rw [hset, hstreams, Dict.entries_set_of_notMem hnot, hearly]
    rfl
  have hcount : (w.openedStream 4 1 (pingStream 20)).1.protocolCounts.unknown "QmPeer" = some 0 := by
    have hnone : w.protocolCounts "QmPeer" = none := by
      rw [protocolCounts, hpeers, Dict.get?_eraseAll, if_pos (List.mem_singleton.mpr rfl), Option.map_none]
    rw [Counts.unknown, openedStream_counts, hnone]
    decide +kernel
  change Backed heap _ ((w.openedStream 4 1 (pingStream 20)).1.streams.entries.map Prod.snd)
    (w.openedStream 4 1 (pingStream 20)).1.protocolCounts.unknown at hbacked
  rw [hentries] at hbacked
  have hfirst := hbacked.1 hlearned
  rw [hpeer] at hfirst
  exact hfirst hcount

end IpfsLite.Tracker
