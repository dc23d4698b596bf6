import IpfsLite.TrackerIdle

namespace IpfsLite.Tracker.Counting

open Runs Conns

/-- A state in which the stats may be capped, with the connections that are open in it: between two
calls, or inside a `disconnected` that is `ok` once its streams are pruned. -/
inductive AtCap (ok : Event → Prop) (n : Net) : Tracker → List (ObjId × String) → Prop
  | between : AtCap ok n n.tracker n.live
  | within (c : Conn) (now : ℚ) (nowTs : String) (heap : Heap) (t : Tracker) (hc : key c ∈ n.live)
      (hok : ok (.disconnected c now nowTs heap))
      (h : pruneLoop heap now c.id c.muxed (n.tracker.seen.dropConnection nowTs c.peer c.id c.muxed).streams.entries
        (n.tracker.seen.dropConnection nowTs c.peer c.id c.muxed) = (t, .ok ())) :
      AtCap ok n t (n.live.erase (key c))

def Removed (t u : Tracker) (p : String) : Prop :=
  (p ∈ t.stats.keys ∧ p ∉ u.stats.keys) ∨ (p ∈ t.peerStreamStats.keys ∧ p ∉ u.peerStreamStats.keys) ∨
    (p ∈ t.peerLifetime.keys ∧ p ∉ u.peerLifetime.keys)

structure EvictsRight (t : Tracker) (live : List (ObjId × String)) (u : Tracker) : Prop where
  disconnected : ∀ p, Removed t u p → p ∉ live.map Prod.snd
  streamless : ∀ p, Removed t u p → ¬HasRecord t p
  oldest : ∀ p s, Removed t u p → t.stats.get? p = some s → ∀ q s', u.stats.get? q = some s' →
    q ∉ live.map Prod.snd → ¬HasRecord t q → NotLater s.lastDisconnectedAt s'.lastDisconnectedAt

/-- An idle peer holds a record; or one without records was disconnected before another that was seen before
it, more than 200 idle peers were seen before it, and there are at most 300 peers besides those. -/
def Misplaced (t : Tracker) : Prop :=
  (∃ e ∈ idlePeers t.stats, HasRecord t e.1) ∨
    ∃ pre e post, idlePeers t.stats = pre ++ e :: post ∧ 200 < pre.length ∧
      t.stats.entries.length ≤ pre.length + 300 ∧ ¬HasRecord t e.1 ∧
      ∃ e' ∈ pre, ¬NotLater e'.2.lastDisconnectedAt e.2.lastDisconnectedAt

variable {ok : Event → Prop} {t : Tracker} {n : Net} {live : List (ObjId × String)} {p : String}

theorem AtCap.conserved (hn : Conserved n) (h : AtCap ok n t live) : Conserved ⟨t, live⟩ := by
  cases h with
  | between => exact hn
  | within c now nowTs heap t hc _ h =>
    have hpruned := conserved_pruned hn hc now nowTs heap
    rw [h] at hpruned
    exact hpruned

theorem AtCap.idleInOrder (hn : Settled n) (h : AtCap (Orderly n) n t live) : IdleInOrder t := by
  cases h with
  | between => exact hn.idleInOrder
  | within c now nowTs heap t hc hok h =>
    have hpruned := hn.pruned hc hok
    rw [h] at hpruned
    exact hpruned.idleInOrder

theorem enforce_tables (h : 500 < t.stats.entries.length) (now : ℚ) :
    (t.enforceStatsCapacity now).stats = t.stats.eraseAll (toRemove t.stats) ∧
      (t.enforceStatsCapacity now).peerLifetime = t.peerLifetime.eraseAll (toRemove t.stats) := by
  unfold enforceStatsCapacity
  rw [if_neg (by omega)]
  dsimp only
  split_ifs <;> exact ⟨rfl, rfl⟩

theorem mem_toRemove_iff (h : 500 < t.stats.entries.length) :
    p ∈ toRemove t.stats ↔ ∃ s, (p, s) ∈ (idlePeers t.stats).take (t.stats.entries.length - 300) := by
  rw [toRemove_eq (by omega), List.mem_map]
  constructor
  · rintro ⟨e, he, rfl⟩
    exact ⟨e.2, he⟩
  · rintro ⟨s, hs⟩
    exact ⟨(p, s), hs, rfl⟩

theorem removed_iff (h : 500 < t.stats.entries.length) (now : ℚ) :
    Removed t (t.enforceStatsCapacity now) p ↔ p ∈ toRemove t.stats := by
  obtain ⟨hstats, hlifetime⟩ := enforce_tables h now
  rw [Removed, hstats, enforce_peers h, hlifetime, Dict.mem_keys_eraseAll, Dict.mem_keys_eraseAll,
    Dict.mem_keys_eraseAll]
  constructor
  · rintro (⟨hk, hnot⟩ | ⟨hk, hnot⟩ | ⟨hk, hnot⟩)
    all_goals
      by_contra hp
      exact hnot ⟨hp, hk⟩
  · intro hp
    obtain ⟨s, hs⟩ := (mem_toRemove_iff h).mp hp
    have hget := (mem_idlePeers.mp (List.mem_of_mem_take hs)).1
    exact .inl ⟨Dict.mem_keys.mpr ⟨s, hget⟩, fun hkept => hkept.1 hp⟩

theorem kept_mem (h : 500 < t.stats.entries.length) (now : ℚ) {s : PeerConnectionStats}
    (hkept : (t.enforceStatsCapacity now).stats.get? p = some s) (hidle : s.currentConnections = 0) :
    (p, s) ∈ (idlePeers t.stats).drop (t.stats.entries.length - 300) := by
  rw [(enforce_tables h now).1, Dict.get?_eraseAll] at hkept
  split_ifs at hkept with hgone
  have hmem := mem_idlePeers.mpr ⟨hkept, hidle⟩
  rw [← List.take_append_drop (t.stats.entries.length - 300) (idlePeers t.stats), List.mem_append] at hmem
  exact hmem.resolve_left fun hfront => hgone ((mem_toRemove_iff h).mpr ⟨s, hfront⟩)

theorem mem_kept (h : 500 < t.stats.entries.length) (now : ℚ) {s : PeerConnectionStats}
    (hmem : (p, s) ∈ (idlePeers t.stats).drop (t.stats.entries.length - 300)) :
    (t.enforceStatsCapacity now).stats.get? p = some s ∧ s.currentConnections = 0 := by
  have hn : ((idlePeers t.stats).map Prod.fst).Nodup :=
    t.stats.nodup.sublist (List.filter_sublist.map Prod.fst)
  rw [← List.take_append_drop (t.stats.entries.length - 300) (idlePeers t.stats), List.map_append,
    List.nodup_append'] at hn
  have hgone : p ∉ toRemove t.stats := by
    intro hp
    rw [toRemove_eq (by omega)] at hp
    exact hn.2.2 hp (List.mem_map_of_mem hmem)
  rw [(enforce_tables h now).1, Dict.get?_eraseAll, if_neg hgone]
  exact mem_idlePeers.mp (List.mem_of_mem_drop hmem)

theorem IdleInOrder.evictsRight (ht : Conserved ⟨t, live⟩) (h : 500 < t.stats.entries.length → IdleInOrder t)
    (now : ℚ) : EvictsRight t live (t.enforceStatsCapacity now) := by
  by_cases hcap : 500 < t.stats.entries.length
  · have horder := h hcap
    have hfront (p : String) (hp : Removed t (t.enforceStatsCapacity now) p) :
        ∃ s, (p, s) ∈ (idlePeers t.stats).take (t.stats.entries.length - 300) :=
      (mem_toRemove_iff hcap).mp ((removed_iff hcap now).mp hp)
    constructor
    · intro p hp
      obtain ⟨s, hs⟩ := hfront p hp
      obtain ⟨hget, hidle⟩ := mem_idlePeers.mp (List.mem_of_mem_take hs)
      exact (idle_iff ht hget).mp hidle
    · intro p hp
      obtain ⟨s, hs⟩ := hfront p hp
      exact horder.streamless (p, s) (List.mem_of_mem_take hs)
    · intro p s hp hget q s' hkept hidle _
      obtain ⟨s₀, hs⟩ := hfront p hp
      have hsame := (mem_idlePeers.mp (List.mem_of_mem_take hs)).1
      rw [hget] at hsame
      obtain rfl := Option.some.inj hsame
      have hget' : t.stats.get? q = some s' := by
        rw [(enforce_tables hcap now).1, Dict.get?_eraseAll] at hkept
        split_ifs at hkept
        exact hkept
      have hbehind := kept_mem hcap now hkept ((idle_iff ht hget').mpr hidle)
      have hordered := horder.ordered
      rw [← List.take_append_drop (t.stats.entries.length - 300) (idlePeers t.stats), List.pairwise_append] at hordered
      exact hordered.2.2 (p, s) hs (q, s') hbehind
  · have hsame : t.enforceStatsCapacity now = t := if_pos (by omega)
    have hnone (p : String) : ¬Removed t (t.enforceStatsCapacity now) p := by
      rw [hsame]
      rintro (⟨hk, hnot⟩ | ⟨hk, hnot⟩ | ⟨hk, hnot⟩) <;> exact hnot hk
    exact ⟨fun p hp => absurd hp (hnone p), fun p hp => absurd hp (hnone p), fun p s hp => absurd hp (hnone p)⟩

/-! Newcomers that stay take no idle peer's place, and bring the stats to the cap. -/

theorem exists_fresh (keys : List String) : ∃ i, (crowdConn i).peer ∉ keys := by
  have hinf := Set.infinite_range_of_injective fun i j => crowdPeer_inj (i := i) (j := j)
  obtain ⟨p, ⟨i, rfl⟩, hp⟩ := hinf.exists_notMem_finset keys.toFinset
  refine ⟨i, ?_⟩
  rw [crowdConn_peer]
  simpa using hp

structure Joined (n : Net) (k : ℕ) (m : Net) : Prop where
  streams : m.tracker.streams = n.tracker.streams
  idle : idlePeers m.tracker.stats = idlePeers n.tracker.stats
  length : m.tracker.stats.entries.length = n.tracker.stats.entries.length + k

theorem run_newcomers (n : Net) (k : ℕ) :
    ∃ later m, Run (fun n e m => step n e = some m) n later m ∧ Joined n k m := by
  induction k with
  | zero => exact ⟨[], n, .refl, rfl, rfl, rfl⟩
  | succ k ih =>
    obtain ⟨later, m, hrun, hjoined⟩ := ih
    obtain ⟨i, hfresh⟩ := exists_fresh m.tracker.stats.keys
    have hstats : (m.tracker.exec (.connected 0 "t0" (crowdConn i).obj)).stats =
        m.tracker.stats.set (crowdConn i).peer (((m.tracker.stats.get? (crowdConn i).peer).getD
          { peerId := (crowdConn i).peer }).connected (crowdConn i).details "t0") := rfl
    rw [Dict.get?_eq_none.mpr hfresh] at hstats
    have hentries := congrArg Dict.entries hstats
    rw [Dict.entries_set_of_notMem hfresh] at hentries
    refine ⟨_, _, hrun.tail (a := .connected (crowdConn i) 0 "t0") rfl, ?_, ?_, ?_⟩
    · exact (connected_streams m.tracker (crowdConn i) 0 "t0").trans hjoined.streams
    · dsimp only
      rw [idlePeers, hentries, List.filter_append, ← idlePeers, hjoined.idle]
      exact List.append_nil _
    · dsimp only
      rw [hentries, List.length_append, hjoined.length, List.length_singleton, Nat.add_assoc]

theorem Misplaced.later (hn : Conserved n) (h : Misplaced n.tracker) : ∃ later m, Run (fun n e m => step n e = some m) n later m ∧
    ∀ now, ¬EvictsRight m.tracker m.live (m.tracker.enforceStatsCapacity now) := by
  rcases h with ⟨e, he, hrecord⟩ | ⟨pre, e, post, hsplit, hmany, hfew, hnone, e', he', hlater⟩
  · -- so many that all idle peers go
    obtain ⟨later, m, hrun, hjoined⟩ := run_newcomers n 501
    refine ⟨later, m, hrun, fun now hright => hright.streamless e.1 ?_ ((hasRecord_congr hjoined.streams).mpr hrecord)⟩
    have hlen : (idlePeers n.tracker.stats).length ≤ n.tracker.stats.entries.length := List.length_filter_le _ _
    have hjoin := hjoined.length
    have hcap : 500 < m.tracker.stats.entries.length := by omega
    refine (removed_iff hcap now).mpr ((mem_toRemove_iff hcap).mpr ⟨e.2, ?_⟩)
    rw [hjoined.idle, List.take_of_length_le (by omega)]
    exact he
  · -- so many that those before the second peer go
    obtain ⟨later, m, hrun, hjoined⟩ := run_newcomers n (pre.length + 300 - n.tracker.stats.entries.length)
    have hjoin := hjoined.length
    have hcap : 500 < m.tracker.stats.entries.length := by omega
    have hplace : m.tracker.stats.entries.length - 300 = pre.length := by omega
    refine ⟨later, m, hrun, fun now hright => hlater ?_⟩
    have hfront : e' ∈ (idlePeers m.tracker.stats).take (m.tracker.stats.entries.length - 300) := by
      rw [hplace, hjoined.idle, hsplit, List.take_left]
      exact he'
    have hbehind : e ∈ (idlePeers m.tracker.stats).drop (m.tracker.stats.entries.length - 300) := by
      rw [hplace, hjoined.idle, hsplit, List.drop_left]
      exact List.mem_cons_self
    have hgone := (removed_iff hcap now).mpr ((mem_toRemove_iff hcap).mpr ⟨e'.2, hfront⟩)
    have hget := (mem_idlePeers.mp (List.mem_of_mem_take hfront)).1
    obtain ⟨hkept, hidle⟩ := mem_kept hcap now hbehind
    have hm : Conserved m := hrun.invariant (fun _ _ _ hn hs => step_conserved hn hs) hn
    have hclosed := (idle_iff hm (mem_idlePeers.mp (List.mem_of_mem_drop hbehind)).1).mp hidle
    have hnone' : ¬HasRecord m.tracker e.1 := fun hrecord => hnone ((hasRecord_congr hjoined.streams).mp hrecord)
    exact hright.oldest e'.1 e'.2 hgone hget e.1 e.2 hkept hclosed hnone'

/-- The cap is right where the idle peers are in order, as they are after every orderly run. Where one is
misplaced, newcomers alone can make the cap go wrong. -/
theorem eviction_right_inOrder (events : List Event) (n : Net)
    (h : Run (fun n e m => step n e = some m) .init events n) :
    (∀ t live, AtCap (fun _ => True) n t live → (500 < t.stats.entries.length → IdleInOrder t) →
      ∀ now, EvictsRight t live (t.enforceStatsCapacity now)) ∧
    (Run (fun n e m => step n e = some m ∧ Orderly n e) .init events n →
      ∀ t live, AtCap (Orderly n) n t live → ∀ now, EvictsRight t live (t.enforceStatsCapacity now)) ∧
    (Misplaced n.tracker → ∃ later m, Run (fun n e m => step n e = some m) n later m ∧
      ∀ now, ¬EvictsRight m.tracker m.live (m.tracker.enforceStatsCapacity now)) := by
  have hconserved : Conserved n := h.invariant (fun _ _ _ hn hs => step_conserved hn hs) init_conserved
  refine ⟨?_, ?_, ?_⟩
  · intro t live hcap horder now
    exact IdleInOrder.evictsRight (hcap.conserved hconserved) horder now
  · intro horderly t live hcap now
    have hn := run_settled horderly
    exact IdleInOrder.evictsRight (hcap.conserved hn.conserved) (fun _ => hcap.idleInOrder hn) now
  · intro hmisplaced
    exact hmisplaced.later hconserved

/-! A crowd of connections -/

theorem run_connected (cs : List Conn) (n : Net) :
    ∃ m, Run (fun n e m => step n e = some m ∧ Orderly n e) n (cs.map fun c => .connected c 0 "t0") m ∧
      m.tracker = (cs.map fun c => Call.connected 0 "t0" c.obj).foldl exec n.tracker ∧ n.live ⊆ m.live ∧
      ∀ c ∈ cs, key c ∈ m.live := by
  induction cs generalizing n with
  | nil => exact ⟨n, .refl, rfl, List.Subset.refl _, fun c hc => absurd hc List.not_mem_nil⟩
  | cons c cs ih =>
    obtain ⟨m, hrun, htracker, hlive, hkeys⟩ := ih ⟨n.tracker.exec (.connected 0 "t0" c.obj), key c :: n.live⟩
    refine ⟨m, .head ⟨rfl, trivial⟩ hrun, htracker, List.Subset.trans (List.subset_cons_self _ _) hlive, ?_⟩
    exact List.forall_mem_cons.mpr ⟨hlive List.mem_cons_self, hkeys⟩

theorem eviction_right_crowd : ∃ events n t live,
    Run (fun n e m => step n e = some m ∧ Orderly n e) .init events n ∧ AtCap (Orderly n) n t live ∧
      (∃ p, Removed t (t.enforceStatsCapacity 3) p) ∧ EvictsRight t live (t.enforceStatsCapacity 3) := by
  obtain ⟨n, hrun, htracker, -, hkeys⟩ := run_connected ((List.range 501).map crowdMember) .init
  rw [List.map_map] at htracker
  have hcrowd : Crowded init 501 n.tracker := by
    rw [htracker]
    exact crowdCalls_crowded (fun i => List.not_mem_nil) 501
  have hstats : n.tracker.stats.entries = (List.range 501).map crowdEntry :=
    hcrowd.stats.trans (List.nil_append _)
  have hlive : key (crowdMember 0) ∈ n.live := hkeys _ (List.mem_map_of_mem (List.mem_range.mpr (by omega)))
  have hnone : n.tracker.streams.entries = [] := by
    rw [hcrowd.streams]
    rfl
  have hok : Orderly n (.disconnected (crowdMember 0) 3 "t3" earlyHeap) := by
    have hbusy : ∀ e ∈ n.tracker.stats.entries, e.2.currentConnections ≠ 0 := by
      intro e he
      rw [hstats] at he
      obtain ⟨i, -, rfl⟩ := List.mem_map.mp he
      exact Nat.one_ne_zero
    intro _
    refine ⟨fun pre s post hsplit => ⟨fun e he hidle => ?_, fun e he hidle => ?_⟩, by simp [hnone]⟩
    · exact absurd hidle (hbusy e (by simp [hsplit, he]))
    · exact absurd hidle (hbusy e (by simp [hsplit, he]))
  let t := n.tracker.seen.dropConnection "t3" (crowdMember 0).peer (crowdMember 0).id (crowdMember 0).muxed
  have hcap : AtCap (Orderly n) n t (n.live.erase (key (crowdMember 0))) := by
    refine .within (crowdMember 0) 3 "t3" earlyHeap t hlive hok ?_
    rw [(dropConnection_frame n.tracker.seen "t3" _ _ _).streams]
    change pruneLoop earlyHeap 3 _ _ n.tracker.streams.entries t = _
    rw [hnone]
    rfl
  have hleft : t.stats.entries = ((crowdMember 0).peer, (crowdEntry 0).2.disconnected "t3") ::
      (List.range 500).map fun i => crowdEntry (i + 1) := by
    have hfirst : n.tracker.stats.entries = [] ++ ((crowdMember 0).peer, (crowdEntry 0).2) ::
        (List.range 500).map fun i => crowdEntry (i + 1) := by
      rw [hstats, List.range_succ_eq_map, List.map_cons, List.map_map]
      rfl
    have hget : n.tracker.seen.stats.get? (crowdMember 0).peer = some (crowdEntry 0).2 := by
      refine Dict.get?_eq_some.mpr ?_
      change _ ∈ n.tracker.stats.entries
      rw [hfirst]
      exact List.mem_cons_self
    simp only [t, dropConnection_stats, disconnectStats, hget]
    exact Dict.entries_set_split hfirst _
  have hlen : t.stats.entries.length = 501 := by rw [hleft, List.length_cons, List.length_map, List.length_range]
  have hremoved : Removed t (t.enforceStatsCapacity 3) (crowdMember 0).peer := by
    refine (removed_iff (by omega) 3).mpr ((mem_toRemove_iff (by omega)).mpr ⟨(crowdEntry 0).2.disconnected "t3", ?_⟩)
    rw [hlen, idlePeers, hleft, List.filter_cons_of_pos (by rfl), List.take_succ_cons]
    exact List.mem_cons_self
  exact ⟨_, n, t, _, hrun, hcap, ⟨_, hremoved⟩, (eviction_right_inOrder _ n (hrun.mono fun _ _ _ => And.left)).2.1 hrun t _ hcap 3⟩

theorem exists_atCap : ∃ events n, Run (fun n e m => step n e = some m) .init events n ∧ Capped n.tracker ∧
    AtCap (fun _ => True) n (earlyDropped n.tracker) (n.live.erase (key earlyPeer)) := by
  have hearly : Run (fun n e m => step n e = some m) .init
      [.openedStream 1 0 (sampleStream 10), .connected earlyPeer 2 "t2"] ⟨earlyTracker, [key earlyPeer]⟩ :=
    .head rfl (.single rfl)
  obtain ⟨n, hrun, htracker, hlive, -⟩ := run_connected ((List.range 2000).map crowdMember)
    ⟨earlyTracker, [key earlyPeer]⟩
  have hcrowd := (crowdCalls_crowded earlyTracker_keys 2000).capped (le_refl 2000)
  rw [List.map_map] at htracker
  have hcapped : Capped n.tracker := by
    rw [htracker]
    exact hcrowd
  exact ⟨_, n, hearly.trans (hrun.mono fun _ _ _ hs => hs.1), hcapped,
    .within earlyPeer 3 "t3" earlyHeap _ (hlive List.mem_cons_self) trivial hcapped.kept⟩

theorem eviction_right_fails :
    ¬∀ (events : List Event) (n : Net), Run (fun n e m => step n e = some m) .init events n →
      ∀ t live, AtCap (fun _ => True) n t live → ∀ now, EvictsRight t live (t.enforceStatsCapacity now) := by
  intro h
  obtain ⟨events, n, hrun, hcapped, hcap⟩ := exists_atCap
  have hlen := hcapped.length
  have hright := h events n hrun _ _ hcap 3
  have hremoved : Removed (earlyDropped n.tracker) ((earlyDropped n.tracker).enforceStatsCapacity 3) "QmPeer" := by
    rw [removed_iff (by omega), hcapped.removed]
    exact List.mem_singleton.mpr rfl
  apply hright.streamless "QmPeer" hremoved
  rw [HasRecord, hcapped.streams]
  decide +kernel

end IpfsLite.Tracker.Counting
