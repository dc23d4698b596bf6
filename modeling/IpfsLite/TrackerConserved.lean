import IpfsLite.TrackerAccounting
import IpfsLite.TrackerConnMeta

namespace IpfsLite.Tracker.Counting

open Runs Conns

/-- A live connection is the identity of its object, with the peer id that both its events give. -/
def key (c : Conn) : ObjId × String := (c.id, c.peer)

structure Net where
  tracker : Tracker
  live : List (ObjId × String)

def Net.init : Net := ⟨Tracker.init, []⟩

def Net.connectionsOf (n : Net) (p : String) : ℕ := (n.live.map Prod.snd).count p

inductive Event
  | connected (conn : Conn) (now : ℚ) (nowTs : String)
  | disconnected (conn : Conn) (now : ℚ) (nowTs : String) (heap : Heap)
  | openedStream (now : ℚ) (ref : StreamRef) (stream : StreamObj)
  | closedStream (now : ℚ) (heap : Heap) (stream : StreamObj)
  | checkForLeaks (now threshold : ℚ) (heap : Heap) (table : LiveTable)
  | streamStatsSnapshot (heap : Heap)

def step (n : Net) : Event → Option Net
  | .connected c now nowTs => some ⟨n.tracker.exec (.connected now nowTs c.obj), key c :: n.live⟩
  | .disconnected c now nowTs heap =>
    if key c ∈ n.live then
      some ⟨n.tracker.exec (.disconnected now nowTs heap c.obj), n.live.erase (key c)⟩
    else none
  | .openedStream now ref stream => some { n with tracker := n.tracker.exec (.openedStream now ref stream) }
  | .closedStream now heap stream => some { n with tracker := n.tracker.exec (.closedStream now heap stream) }
  | .checkForLeaks now threshold heap table =>
    some { n with tracker := n.tracker.exec (.checkForLeaks now threshold heap table) }
  | .streamStatsSnapshot heap => some { n with tracker := n.tracker.exec (.streamStatsSnapshot heap) }

def currentConnections (t : Tracker) (p : String) : ℕ :=
  ((t.stats.get? p).map PeerConnectionStats.currentConnections).getD 0

def sumConnections (t : Tracker) : ℕ := (t.stats.entries.map fun e => e.2.currentConnections).sum

structure Conserved (n : Net) : Prop where
  counts : ∀ p, currentConnections n.tracker p = n.connectionsOf p
  events : n.tracker.totalConnectedEvents = n.tracker.totalDisconnectedEvents + n.live.length

variable {t u v : Tracker} {n m : Net} {now : ℚ} {nowTs : String} {heap : Heap} {p : String}

theorem Conserved.congr {live : List (ObjId × String)} (ht : Conserved ⟨t, live⟩) (h : SameConns t u) :
    Conserved ⟨u, live⟩ := by
  constructor
  · intro p
    rw [currentConnections, h.stats]
    exact ht.counts p
  · change u.totalConnectedEvents = u.totalDisconnectedEvents + live.length
    rw [h.connected, h.disconnected]
    exact ht.events

theorem mem_evictLoop {len : ℕ} {es : List (String × PeerConnectionStats)} {gone : List String}
    (h : p ∈ evictLoop len es gone) : p ∈ gone ∨ ∃ s, (p, s) ∈ es ∧ s.currentConnections = 0 := by
  induction es generalizing gone with
  | nil => exact .inl h
  | cons e es ih =>
    have hnow (hidle : e.2.currentConnections = 0) (hp : p ∈ gone ++ [e.1]) :
        p ∈ gone ∨ ∃ s, (p, s) ∈ e :: es ∧ s.currentConnections = 0 := by
      rcases List.mem_append.mp hp with hp | hp
      · exact .inl hp
      · obtain rfl := List.mem_singleton.mp hp
        exact .inr ⟨e.2, List.mem_cons_self, hidle⟩
    have hlater {gone' : List String} (hp : p ∈ evictLoop len es gone') :
        p ∈ gone' ∨ ∃ s, (p, s) ∈ e :: es ∧ s.currentConnections = 0 := by
      apply (ih hp).imp_right
      rintro ⟨s, hs, hidle⟩
      exact ⟨s, List.mem_cons_of_mem _ hs, hidle⟩
    rw [evictLoop] at h
    split_ifs at h with hidle
    · exact hnow hidle h
    · rcases hlater h with hp | hp
      · exact hnow hidle hp
      · exact .inr hp
    · exact hlater h

theorem toRemove_idle (h : p ∈ toRemove t.stats) : currentConnections t p = 0 := by
  rcases mem_evictLoop h with hnil | ⟨s, hs, hidle⟩
  · exact absurd hnil List.not_mem_nil
  · rw [currentConnections, Dict.get?_eq_some.mpr hs, Option.map_some, Option.getD_some, hidle]

theorem enforce_stats (t : Tracker) (now : ℚ) : (t.enforceStatsCapacity now).stats = t.stats ∨
    (t.enforceStatsCapacity now).stats = t.stats.eraseAll (toRemove t.stats) := by
  unfold enforceStatsCapacity
  split_ifs
  · exact .inl rfl
  · dsimp only
    split_ifs
    · exact .inr rfl
    · exact .inr rfl

theorem enforce_events (t : Tracker) (now : ℚ) :
    (t.enforceStatsCapacity now).totalConnectedEvents = t.totalConnectedEvents ∧
      (t.enforceStatsCapacity now).totalDisconnectedEvents = t.totalDisconnectedEvents := by
  unfold enforceStatsCapacity
  dsimp only
  split_ifs <;> exact ⟨rfl, rfl⟩

theorem enforce_current (t : Tracker) (now : ℚ) (p : String) :
    currentConnections (t.enforceStatsCapacity now) p = currentConnections t p := by
  rcases enforce_stats t now with h | h
  · rw [currentConnections, h, currentConnections]
  · rw [currentConnections, h, Dict.get?_eraseAll]
    split_ifs with hp
    · exact (toRemove_idle hp).symm
    · rfl

theorem enforce_conserved {live : List (ObjId × String)} (now : ℚ) (ht : Conserved ⟨t, live⟩) :
    Conserved ⟨t.enforceStatsCapacity now, live⟩ := by
  obtain ⟨hconnected, hdisconnected⟩ := enforce_events t now
  constructor
  · intro p
    exact (enforce_current t now p).trans (ht.counts p)
  · change (t.enforceStatsCapacity now).totalConnectedEvents = _
    rw [hconnected]
    exact ht.events.trans (by rw [hdisconnected])

theorem disconnectStats_current (h : u.stats = disconnectStats t.stats p nowTs) (q : String) :
    currentConnections u q = currentConnections t q - if q = p then 1 else 0 := by
  rw [currentConnections, h, disconnectStats, currentConnections]
  cases hp : t.stats.get? p with
  | none =>
    split_ifs with hq
    · rw [hq, hp]
      rfl
    · rfl
  | some s =>
    dsimp only
    rw [Dict.get?_set]
    split_ifs with hq
    · rw [hq, hp]
      rfl
    · rfl

theorem dropConnection_events (t : Tracker) (nowTs : String) (k : ObjId) (muxedId : Option ObjId) (p : String) :
    (t.dropConnection nowTs p k muxedId).totalConnectedEvents = t.totalConnectedEvents ∧
      (t.dropConnection nowTs p k muxedId).totalDisconnectedEvents = t.totalDisconnectedEvents + 1 := by
  have hid := SameConns.popMeta t p k
  cases muxedId with
  | none => exact ⟨hid.connected, congrArg (· + 1) hid.disconnected⟩
  | some m =>
    have hmuxed := hid.trans (SameConns.popMeta _ p m)
    exact ⟨hmuxed.connected, congrArg (· + 1) hmuxed.disconnected⟩

theorem connectionsOf_erase {c : ObjId × String} (hc : c ∈ n.live) (q : String) :
    n.connectionsOf q = (Net.mk t (n.live.erase c)).connectionsOf q + if q = c.2 then 1 else 0 := by
  have hperm := ((List.perm_cons_erase hc).map Prod.snd).count_eq q
  rw [List.map_cons, List.count_cons] at hperm
  simp only [beq_iff_eq, eq_comm (a := c.2)] at hperm
  exact hperm

theorem dropConnection_conserved {c : Conn} (hn : Conserved n) (hc : key c ∈ n.live)
    (muxedId : Option ObjId) (nowTs : String) :
    Conserved ⟨n.tracker.dropConnection nowTs c.peer c.id muxedId, n.live.erase (key c)⟩ := by
  obtain ⟨hconnected, hdisconnected⟩ := dropConnection_events n.tracker nowTs c.id muxedId c.peer
  constructor
  · intro q
    have hcur := disconnectStats_current (dropConnection_stats n.tracker nowTs c.peer c.id muxedId) q
    have hcount := hn.counts q
    rw [connectionsOf_erase (t := n.tracker.dropConnection nowTs c.peer c.id muxedId) hc] at hcount
    -- the connection is counted, so the clamp at zero is never reached
    rw [hcur, hcount]
    exact Nat.add_sub_cancel ..
  · have hlen := List.length_erase_add_one hc
    have hevents := hn.events
    dsimp only
    omega

theorem connected_current (t : Tracker) (c : Conn) (now : ℚ) (nowTs q : String) :
    currentConnections (t.exec (.connected now nowTs c.obj)) q =
      currentConnections t q + if q = c.peer then 1 else 0 := by
  have hstats : (t.exec (.connected now nowTs c.obj)).stats =
      t.stats.set c.peer (((t.stats.get? c.peer).getD { peerId := c.peer }).connected c.details nowTs) := rfl
  rw [currentConnections, hstats, Dict.get?_set, currentConnections]
  split_ifs with hq
  · rw [hq]
    cases t.stats.get? c.peer <;> rfl
  · rfl

theorem connected_conserved (c : Conn) (now : ℚ) (nowTs : String) (hn : Conserved n) :
    Conserved ⟨n.tracker.exec (.connected now nowTs c.obj), key c :: n.live⟩ := by
  constructor
  · intro q
    dsimp only
    rw [connected_current, hn.counts q, Net.connectionsOf, Net.connectionsOf, List.map_cons, List.count_cons]
    simp only [key, beq_iff_eq, eq_comm (a := c.peer)]
  · have hevents := hn.events
    change n.tracker.totalConnectedEvents + 1 = n.tracker.totalDisconnectedEvents + (n.live.length + 1)
    omega

theorem disconnected_conserved {c : Conn} (hn : Conserved n) (hc : key c ∈ n.live) (now : ℚ) (nowTs : String)
    (heap : Heap) : Conserved ⟨n.tracker.exec (.disconnected now nowTs heap c.obj), n.live.erase (key c)⟩ := by
  have hseen : Conserved ⟨n.tracker.seen, n.live⟩ := ⟨hn.counts, hn.events⟩
  have hdrop := dropConnection_conserved hseen hc c.muxed nowTs
  change Conserved ⟨((n.tracker.seen.dropConnection nowTs c.peer c.id c.muxed).pruneStreams now heap c.id
    c.muxed).1, n.live.erase (key c)⟩
  have hloop := SameConns.pruneLoop now heap c.id c.muxed
    (n.tracker.seen.dropConnection nowTs c.peer c.id c.muxed).streams.entries
    (n.tracker.seen.dropConnection nowTs c.peer c.id c.muxed)
  unfold pruneStreams
  split
  · next u e herr =>
    rw [herr] at hloop
    exact hdrop.congr hloop
  · next u _ hok =>
    rw [hok] at hloop
    dsimp only
    split_ifs
    · exact enforce_conserved now (hdrop.congr hloop)
    · exact hdrop.congr hloop

theorem step_conserved {e : Event} (hn : Conserved n) (hs : step n e = some m) : Conserved m := by
  cases e with
  | connected c now nowTs =>
    obtain rfl := Option.some.inj hs
    exact connected_conserved c now nowTs hn
  | disconnected c now nowTs heap =>
    rw [step] at hs
    split_ifs at hs with hc
    obtain rfl := Option.some.inj hs
    exact disconnected_conserved hn hc now nowTs heap
  | openedStream now ref stream =>
    obtain rfl := Option.some.inj hs
    exact hn.congr (SameConns.openedStream n.tracker now ref stream)
  | closedStream now heap stream =>
    obtain rfl := Option.some.inj hs
    exact hn.congr (SameConns.closedStream n.tracker now heap stream)
  | checkForLeaks now threshold heap table =>
    obtain rfl := Option.some.inj hs
    exact hn.congr (SameConns.leakLoop heap now threshold _ _ n.tracker [])
  | streamStatsSnapshot heap =>
    obtain rfl := Option.some.inj hs
    exact hn.congr (SameConns.refreshLoop heap _ n.tracker)

theorem init_conserved : Conserved .init := ⟨fun _ => rfl, rfl⟩

theorem Conserved.sum_eq (hn : Conserved n) : sumConnections n.tracker = n.live.length := by
  have hvalue (e : String × PeerConnectionStats) (he : e ∈ n.tracker.stats.entries) :
      e.2.currentConnections = n.connectionsOf e.1 := by
    have hcount := hn.counts e.1
    rw [currentConnections, Dict.get?_eq_some.mpr he] at hcount
    exact hcount
  have hkeys : ∀ p ∈ n.live.map Prod.snd, p ∈ n.tracker.stats.keys := by
    intro p hp
    by_contra hnot
    have hcount := hn.counts p
    rw [currentConnections, Dict.get?_eq_none.mpr hnot] at hcount
    exact (List.count_pos_iff.mpr hp).ne hcount
  calc sumConnections n.tracker
      = (n.tracker.stats.entries.map fun e => n.connectionsOf e.1).sum := by
        rw [sumConnections, List.map_congr_left hvalue]
    _ = (n.tracker.stats.keys.map n.connectionsOf).sum := by
        rw [Dict.keys, List.map_map]
        rfl
    _ = ∑ p ∈ n.tracker.stats.keys.toFinset, (n.live.map Prod.snd).count p :=
        (List.sum_toFinset n.connectionsOf n.tracker.stats.nodup).symm
    _ = (n.live.map Prod.snd).length := by
        have hsum := Multiset.sum_count_eq_card (s := n.tracker.stats.keys.toFinset)
          (m := ↑(n.live.map Prod.snd)) fun p hp => List.mem_toFinset.mpr (hkeys p hp)
        simpa only [Multiset.coe_count, Multiset.coe_card] using hsum
    _ = n.live.length := List.length_map ..

theorem connections_conserved {events : List Event} (h : Run (fun n e m => step n e = some m) .init events n) :
    (∀ p, currentConnections n.tracker p = n.connectionsOf p) ∧
      (n.tracker.totalConnectedEvents : ℤ) - n.tracker.totalDisconnectedEvents = sumConnections n.tracker := by
  have hn : Conserved n := h.invariant (fun _ _ _ hn hs => step_conserved hn hs) init_conserved
  refine ⟨hn.counts, ?_⟩
  rw [hn.sum_eq, hn.events]
  push_cast
  ring

theorem connections_conserved_reconnected :
    let conn : Conn := ⟨1, some 2, some "QmPeer", ⟨"outbound", "tcp", "Noise", "yamux", none⟩⟩
    let events : List Event := [.connected conn 1 "t1", .openedStream 2 0 (sampleStream 10),
      .disconnected conn 3 "t3" fun _ => some (sampleStream 10), .connected conn 4 "t4"]
    ∃ n, Run (fun n e m => step n e = some m) .init events n ∧ currentConnections n.tracker "QmPeer" = 1 ∧
      (∀ p, currentConnections n.tracker p = n.connectionsOf p) ∧
      (n.tracker.totalConnectedEvents : ℤ) - n.tracker.totalDisconnectedEvents =
        sumConnections n.tracker := by
  intro conn events
  obtain ⟨n, hrun, hone⟩ := exists_run step .init events
    (fun n => currentConnections n.tracker "QmPeer" = 1) (by decide +kernel)
  exact ⟨n, hrun, of_decide_eq_true hone, connections_conserved hrun⟩

end IpfsLite.Tracker.Counting
