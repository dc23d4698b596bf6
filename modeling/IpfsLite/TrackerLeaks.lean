import IpfsLite.TrackerClosing
import IpfsLite.TrackerPeers

/-! The signals of a dead stream, against what `check_for_leaks` does with its record. -/

namespace IpfsLite.Tracker

def muxedStates : List String := ["CLOSED", "RESET", "closed", "reset"]

def terminalStates : List String := ["CLOSE_BOTH", "RESET", "ERROR"]

/-- One of the signals of `_record_stream_dead`, each on its own. -/
inductive Signal : Option StreamObj → Prop
  | collected : Signal none
  | closed (s : StreamObj) : s.isClosed = .ok (some true) → Signal (some s)
  | muxedClosed (s : StreamObj) (m : MuxedStreamObj) : s.muxedStream = .ok (some m) →
      m.isClosed = .ok (some true) → Signal (some s)
  | muxedState (s : StreamObj) (m : MuxedStreamObj) (state : String) : s.muxedStream = .ok (some m) →
      m.state = .ok (some state) → state ∈ muxedStates → Signal (some s)
  | terminal (s : StreamObj) (state : String) : s.state = .ok (some state) → state ∈ terminalStates →
      Signal (some s)
  | swarmConn (s : StreamObj) (c : SwarmConnObj) : s.swarmConn = .ok (some c) →
      c.isClosed = .ok (some true) → Signal (some s)
  | muxedConn (s : StreamObj) (c : MuxedConnObj) : s.muxedConn = .ok (some c) →
      c.isClosed = .ok (some true) → Signal (some s)

/-- The signals that get through: an `is_closed` of the stream that is false ends the search, and an
`is_closed` of the muxed stream that raises skips its state. -/
inductive Heard : Option StreamObj → Prop
  | collected : Heard none
  | closed (s : StreamObj) : s.isClosed = .ok (some true) → Heard (some s)
  | muxedClosed (s : StreamObj) (m : MuxedStreamObj) : s.isClosed ≠ .ok (some false) →
      s.muxedStream = .ok (some m) → m.isClosed = .ok (some true) → Heard (some s)
  | muxedState (s : StreamObj) (m : MuxedStreamObj) (closed : Option Bool) (state : String) :
      s.isClosed ≠ .ok (some false) → s.muxedStream = .ok (some m) → m.isClosed = .ok closed →
      m.state = .ok (some state) → state ∈ muxedStates → Heard (some s)
  | terminal (s : StreamObj) (state : String) : s.isClosed ≠ .ok (some false) →
      s.state = .ok (some state) → state ∈ terminalStates → Heard (some s)
  | swarmConn (s : StreamObj) (c : SwarmConnObj) : s.isClosed ≠ .ok (some false) →
      s.swarmConn = .ok (some c) → c.isClosed = .ok (some true) → Heard (some s)
  | muxedConn (s : StreamObj) (c : MuxedConnObj) : s.isClosed ≠ .ok (some false) →
      s.muxedConn = .ok (some c) → c.isClosed = .ok (some true) → Heard (some s)

theorem muxedStreamDead_iff (s : StreamObj) : muxedStreamDead s = true ↔
    ∃ m, s.muxedStream = .ok (some m) ∧ (m.isClosed = .ok (some true) ∨
      ∃ closed state, m.isClosed = .ok closed ∧ m.state = .ok (some state) ∧ state ∈ muxedStates) := by
  unfold muxedStreamDead muxedStates
  rcases s.muxedStream with e | _ | m
  · simp [tryOr, bind, Except.bind]
  · simp [tryOr, bind, Except.bind, pure, Except.pure]
  · rcases hclosed : m.isClosed with e | _ | _ | _
    all_goals
      rcases hstate : m.state with e' | _ | state
      all_goals simp [tryOr, bind, Except.bind, pure, Except.pure, hclosed, hstate]

theorem stateTerminal_iff (s : StreamObj) :
    stateTerminal s = true ↔ ∃ state, s.state = .ok (some state) ∧ state ∈ terminalStates := by
  unfold stateTerminal terminalStates
  rcases s.state with e | _ | state
  · simp [tryOr, bind, Except.bind]
  · simp [tryOr, bind, Except.bind, pure, Except.pure]
  · simp [tryOr, bind, Except.bind, pure, Except.pure]

theorem swarmConnClosed_iff (s : StreamObj) :
    swarmConnClosed s = true ↔ ∃ c, s.swarmConn = .ok (some c) ∧ c.isClosed = .ok (some true) := by
  unfold swarmConnClosed
  rcases s.swarmConn with e | _ | c
  · simp [tryOr, bind, Except.bind]
  · simp [tryOr, bind, Except.bind, pure, Except.pure]
  · rcases hclosed : c.isClosed with e | closed <;>
      simp [tryOr, bind, Except.bind, pure, Except.pure, hclosed]

theorem muxedConnClosed_iff (s : StreamObj) :
    muxedConnClosed s = true ↔ ∃ c, s.muxedConn = .ok (some c) ∧ c.isClosed = .ok (some true) := by
  unfold muxedConnClosed
  rcases s.muxedConn with e | _ | c
  · simp [tryOr, bind, Except.bind]
  · simp [tryOr, bind, Except.bind, pure, Except.pure]
  · rcases hclosed : c.isClosed with e | closed <;>
      simp [tryOr, bind, Except.bind, pure, Except.pure, hclosed]

theorem recordStreamDead_iff (obj : Option StreamObj) : recordStreamDead obj = true ↔ Heard obj := by
  cases obj with
  | none => exact iff_of_true rfl .collected
  | some s =>
    by_cases hdead : s.isClosed = .ok (some true)
    · exact iff_of_true (by simp [recordStreamDead, hdead]) (.closed s hdead)
    · by_cases hlive : s.isClosed = .ok (some false)
      · refine iff_of_false (by simp [recordStreamDead, hlive]) fun h => ?_
        cases h <;> contradiction
      · have hrest : recordStreamDead (some s) =
            (muxedStreamDead s || stateTerminal s || swarmConnClosed s || muxedConnClosed s) := by
          rcases h : s.isClosed with e | _ | _ | _
          · simp [recordStreamDead, h]
          · simp [recordStreamDead, h]
          · exact absurd h hlive
          · exact absurd h hdead
        rw [hrest, Bool.or_eq_true, Bool.or_eq_true, Bool.or_eq_true, muxedStreamDead_iff, stateTerminal_iff,
          swarmConnClosed_iff, muxedConnClosed_iff]
        constructor
        · rintro (((⟨m, hm, hc | ⟨closed, state, hc, hs, hmem⟩⟩ | ⟨state, hs, hmem⟩) | ⟨c, hc, hcc⟩) |
            ⟨c, hc, hcc⟩)
          · exact .muxedClosed s m hlive hm hc
          · exact .muxedState s m closed state hlive hm hc hs hmem
          · exact .terminal s state hlive hs hmem
          · exact .swarmConn s c hlive hc hcc
          · exact .muxedConn s c hlive hc hcc
        · intro h
          cases h with
          | closed _ h => exact absurd h hdead
          | muxedClosed _ m _ hm hc => exact .inl (.inl (.inl ⟨m, hm, .inl hc⟩))
          | muxedState _ m closed state _ hm hc hs hmem =>
            exact .inl (.inl (.inl ⟨m, hm, .inr ⟨closed, state, hc, hs, hmem⟩⟩))
          | terminal _ state _ hs hmem => exact .inl (.inl (.inr ⟨state, hs, hmem⟩))
          | swarmConn _ c _ hc hcc => exact .inl (.inr ⟨c, hc, hcc⟩)
          | muxedConn _ c _ hc hcc => exact .inr ⟨c, hc, hcc⟩

/-! What a sweep does with one record -/

def closedTotal (t : Tracker) (p : String) : ℕ :=
  ((t.peerStreamStats.get? p).map PeerStreamStats.totalClosed).getD 0

def Finalised (t u : Tracker) : Prop :=
  ∀ p, u.closedTotal p + u.liveCount p = t.closedTotal p + t.liveCount p

structure Settles (t : Tracker) (heap : Heap) (now threshold : ℚ) (live : LiveTable) (key : String)
    (r : StreamRecord) : Prop where
  removed : key ∉ (t.checkForLeaks now threshold heap live).1.streams.keys
  finalised : Finalised t (t.checkForLeaks now threshold heap live).1
  -- what is returned are other entries of the table
  spared : ∀ leaked, (t.checkForLeaks now threshold heap live).2 = .ok leaked →
    ∃ es, es.Sublist t.streams.entries ∧ (key, r) ∉ es ∧ List.Forall₂ (fun e r' => SameStream e.2 r') es leaked

variable {t u : Tracker} {heap : Heap} {now threshold : ℚ} {live : LiveTable} {key : String} {r : StreamRecord}
  {pre post rest : List (String × StreamRecord)} {leaked : List StreamRecord}

theorem leakLoop_removes_iff (heap : Heap) (now threshold : ℚ) (live : LiveTable) (leaked : List StreamRecord)
    (hn : ((pre ++ (key, r) :: post).map Prod.fst).Nodup)
    (hget : t.streams.get? key ≠ none) :
    (leakLoop heap now threshold live (pre ++ (key, r) :: post) t leaked).1.streams.get? key = none ↔
      (∀ e ∈ pre, Finalizes heap live t.hasNetwork e.2 → Readable heap e.2) ∧
        Finalizes heap live t.hasNetwork r ∧ Readable heap r := by
  induction pre generalizing t leaked with
  | nil =>
    rw [List.nil_append, List.map_cons, List.nodup_cons] at hn
    rw [List.nil_append, and_iff_right (fun e he => absurd he List.not_mem_nil)]
    by_cases hfin : Finalizes heap live t.hasNetwork r
    · cases hread : readReset (r.obj heap) with
      | ok reset =>
        rw [leakLoop_reconciles threshold post leaked hfin ⟨reset, hread⟩, leakLoop_others hn.1,
          reconciled_get? ⟨reset, hread⟩, if_pos rfl]
        exact iff_of_true rfl ⟨hfin, reset, hread⟩
      | error e =>
        rw [leakLoop_unreadable threshold post leaked hfin hread, refreshed_get?, if_pos rfl]
        exact iff_of_false (by simp) fun h => not_readable_iff.mpr ⟨e, hread⟩ h.2
    · refine iff_of_false ?_ fun h => hfin h.1
      by_cases hage : Suspect now threshold r
      · rw [leakLoop_flags threshold post leaked hfin hage, leakLoop_others hn.1, flagged_get?, if_pos rfl]
        simp
      · rw [leakLoop_keeps threshold post leaked hfin hage, leakLoop_others hn.1, refreshed_get?, if_pos rfl]
        simp
  | cons e pre ih =>
    obtain ⟨k, s⟩ := e
    rw [List.cons_append, List.map_cons, List.nodup_cons] at hn
    have hne : key ≠ k := by
      rintro rfl
      exact hn.1 (List.mem_map.mpr ⟨(key, r), by simp, rfl⟩)
    rw [List.cons_append, List.forall_mem_cons]
    by_cases hfin : Finalizes heap live t.hasNetwork s
    · cases hread : readReset (s.obj heap) with
      | ok reset =>
        have hread : Readable heap s := ⟨reset, hread⟩
        rw [leakLoop_reconciles threshold _ leaked hfin hread, ih _ hn.2, reconciled_network,
          and_iff_right fun _ => hread]
        rwa [reconciled_get? hread, if_neg hne]
      | error err =>
        rw [leakLoop_unreadable threshold _ leaked hfin hread, refreshed_get?, if_neg hne]
        exact iff_of_false hget fun h => not_readable_iff.mpr ⟨err, hread⟩ (h.1.1 hfin)
    · rw [and_iff_right fun h => absurd h hfin]
      by_cases hage : Suspect now threshold s
      · rw [leakLoop_flags threshold _ leaked hfin hage, ih _ hn.2, flagged_network]
        rwa [flagged_get?, if_neg hne]
      · rw [leakLoop_keeps threshold _ leaked hfin hage, ih _ hn.2, refreshed_network]
        rwa [refreshed_get?, if_neg hne]

theorem leakLoop_leaked (t : Tracker) (heap : Heap) (now threshold : ℚ) (live : LiveTable)
    (rest : List (String × StreamRecord)) (leaked : List StreamRecord) :
    ∀ out, (leakLoop heap now threshold live rest t leaked).2 = .ok out →
      ∃ es flagged, es.Sublist rest ∧ (∀ e ∈ es, ¬Finalizes heap live t.hasNetwork e.2) ∧
        List.Forall₂ (fun e r' => SameStream e.2 r') es flagged ∧ out = leaked ++ flagged := by
  apply leakLoop_induction heap now threshold live (motive := fun t rest leaked result =>
    ∀ out, result.2 = .ok out →
      ∃ es flagged, es.Sublist rest ∧ (∀ e ∈ es, ¬Finalizes heap live t.hasNetwork e.2) ∧
        List.Forall₂ (fun e r' => SameStream e.2 r') es flagged ∧ out = leaked ++ flagged)
  · intro t leaked out hout
    refine ⟨[], [], List.nil_sublist _, fun e he => absurd he List.not_mem_nil, .nil, ?_⟩
    rw [List.append_nil, Except.ok.inj hout]
  · intro t key r rest leaked result _ _ ih out hout
    obtain ⟨es, flagged, hsub, hnot, hsame, hout⟩ := ih out hout
    rw [reconciled_network] at hnot
    exact ⟨es, flagged, hsub.cons _, hnot, hsame, hout⟩
  · intro t key r rest leaked e _ _ out hout
    contradiction
  · intro t key r rest leaked result hfin _ ih out hout
    obtain ⟨es, flagged, hsub, hnot, hsame, hout⟩ := ih out hout
    rw [flagged_network] at hnot
    refine ⟨(key, r) :: es, (t.flagged heap key r).2 :: flagged, hsub.cons_cons _, ?_, ?_, ?_⟩
    · exact List.forall_mem_cons.mpr ⟨hfin, hnot⟩
    · exact .cons (refreshAt_same t heap key r).1 hsame
    · rw [hout, List.append_assoc, List.singleton_append]
  · intro t key r rest leaked result _ _ ih out hout
    obtain ⟨es, flagged, hsub, hnot, hsame, hout⟩ := ih out hout
    rw [refreshed_network] at hnot
    exact ⟨es, flagged, hsub.cons _, hnot, hsame, hout⟩

theorem refresh_totalClosed (s : PeerStreamStats) (heap : Heap) (r : StreamRecord) :
    (s.refresh heap r).totalClosed = s.totalClosed := by
  have hdir : (s.learnDirection heap r).totalClosed = s.totalClosed := by
    unfold PeerStreamStats.learnDirection
    split_ifs
    · cases refreshedDirection heap r <;> rfl
    · rfl
  have hproto (s : PeerStreamStats) (proto : Option String) :
      (s.learnProtocol proto).totalClosed = s.totalClosed := by
    cases proto <;> rfl
  rw [PeerStreamStats.refresh, hproto, hdir]

theorem refreshedPeer_totalClosed (t : Tracker) (heap : Heap) (r : StreamRecord) :
    (t.refreshedPeer heap r).totalClosed = t.closedTotal r.peerId := by
  unfold refreshedPeer closedTotal
  cases t.peerStreamStats.get? r.peerId with
  | none => rfl
  | some s => exact refresh_totalClosed s heap r

theorem Finalised.refl (t : Tracker) : Finalised t t := fun _ => rfl

theorem Finalised.trans {v : Tracker} (h : Finalised t u) (k : Finalised u v) : Finalised t v :=
  fun p => (k p).trans (h p)

theorem refreshed_finalised (hget : t.streams.get? key = some r) : Finalised t (t.refreshed heap key r) := by
  intro p
  have hlive := (refreshAt_touched heap hget).1.lives p
  have hclosed : (t.refreshed heap key r).closedTotal p = t.closedTotal p := by
    rw [closedTotal, refreshed_peers, closedTotal]
    split_ifs
    · cases t.peerStreamStats.get? p with
      | none => rfl
      | some s => exact refresh_totalClosed s heap r
    · rfl
  rw [hclosed]
  exact congrArg _ hlive

theorem flagged_finalised (hget : t.streams.get? key = some r) : Finalised t (t.flagged heap key r).1 := by
  intro p
  obtain ⟨htouch, -, hget'⟩ := refreshAt_touched heap hget
  have hlive := (htouch.trans (flagLeak_touched hget')).lives p
  have hclosed : (t.flagged heap key r).1.closedTotal p = t.closedTotal p := by
    rw [closedTotal, flagged_peers, closedTotal]
    split_ifs with hp
    · rw [hp]
      exact refreshedPeer_totalClosed t heap r
    · rfl
  rw [hclosed]
  exact congrArg _ hlive

theorem reconciled_finalised (hread : Readable heap r) (hget : t.streams.get? key = some r) (now : ℚ) :
    Finalised t (t.reconciled heap now key r) := by
  intro p
  obtain ⟨htouch, hsame, hget'⟩ := refreshAt_touched heap hget
  have hok := (finalizeRecord_ok_iff heap now (t.refreshAt heap key r).1 key (t.refreshAt heap key r).2).mpr
    (by rwa [(refreshAt_same t heap key r).2.1])
  have hlive := liveCount_erase hget' (finalizeRecord_streams hok) p
  rw [hsame.2.1, htouch.lives p] at hlive
  change (t.reconciled heap now key r).liveCount p + _ = t.liveCount p at hlive
  obtain ⟨d, reset, hpeer⟩ := reconciled_peers hread t now key
  have hclosed : (t.reconciled heap now key r).closedTotal p =
      t.closedTotal p + if r.peerId = p then 1 else 0 := by
    rw [closedTotal, hpeer p]
    split_ifs with hp hp' hp'
    · have hone : ((t.refreshedPeer heap r).closed d reset).totalClosed =
          (t.refreshedPeer heap r).totalClosed + 1 := by
        cases d <;> rfl
      rw [Option.map_some, Option.getD_some, hone, refreshedPeer_totalClosed, hp]
    · exact absurd hp.symm hp'
    · exact absurd hp'.symm hp
    · rfl
  omega

theorem leakLoop_finalised (t : Tracker) (heap : Heap) (now threshold : ℚ) (live : LiveTable)
    (rest : List (String × StreamRecord)) (leaked : List StreamRecord) (hahead : Ahead t rest) :
    Finalised t (leakLoop heap now threshold live rest t leaked).1 := by
  revert hahead
  apply leakLoop_induction heap now threshold live (motive := fun t rest _ result =>
    Ahead t rest → Finalised t result.1)
  · exact fun t _ _ => .refl t
  · intro t key r rest leaked result _ hread ih hahead
    have hget : t.streams.get? key = some r := hahead.2 _ List.mem_cons_self
    refine (reconciled_finalised hread hget now).trans (ih (hahead.next fun k hk => ?_))
    rw [reconciled_get? hread, if_neg hk]
  · intro t key r rest leaked e _ _ hahead
    exact refreshed_finalised (hahead.2 _ List.mem_cons_self)
  · intro t key r rest leaked result _ _ ih hahead
    have hget : t.streams.get? key = some r := hahead.2 _ List.mem_cons_self
    refine (flagged_finalised hget).trans (ih (hahead.next fun k hk => ?_))
    rw [flagged_get?, if_neg hk]
  · intro t key r rest leaked result _ _ ih hahead
    have hget : t.streams.get? key = some r := hahead.2 _ List.mem_cons_self
    refine (refreshed_finalised hget).trans (ih (hahead.next fun k hk => ?_))
    rw [refreshed_get?, if_neg hk]

/-- The sweep finds the record dead, can read its `_state`, and is not ended by one before it. -/
structure Reconciles (t : Tracker) (heap : Heap) (live : LiveTable) (pre : List (String × StreamRecord))
    (r : StreamRecord) : Prop where
  found : Heard (r.obj heap) ∨
    (t.hasNetwork = true ∧ recordConnectionGone r.peerId (r.obj heap) live.ids live.peers = true)
  readable : Readable heap r
  reached : ∀ e ∈ pre, Finalizes heap live t.hasNetwork e.2 → Readable heap e.2

theorem finalizes_iff (live : LiveTable) (b : Bool) (r : StreamRecord) : Finalizes heap live b r ↔
    Heard (r.obj heap) ∨ (b = true ∧ recordConnectionGone r.peerId (r.obj heap) live.ids live.peers = true) := by
  rw [Finalizes, Bool.or_eq_true, Bool.and_eq_true, recordStreamDead_iff]

theorem checkForLeaks_eq (t : Tracker) (heap : Heap) (now threshold : ℚ) (live : LiveTable) :
    t.checkForLeaks now threshold heap live =
      leakLoop heap now threshold (if t.hasNetwork then live else ⟨[], []⟩) t.streams.entries t [] := rfl

theorem finalizes_table (t : Tracker) (heap : Heap) (live : LiveTable) (r : StreamRecord) :
    Finalizes heap (if t.hasNetwork then live else ⟨[], []⟩) t.hasNetwork r =
      Finalizes heap live t.hasNetwork r := by
  cases t.hasNetwork <;> rfl

theorem deadStream_settles_iff (t : Tracker) (heap : Heap) (now threshold : ℚ) (live : LiveTable)
    (pre : List (String × StreamRecord)) (key : String) (r : StreamRecord) (post : List (String × StreamRecord))
    (hsplit : t.streams.entries = pre ++ (key, r) :: post) :
    (Signal (r.obj heap) → Settles t heap now threshold live key r) ↔
      (Signal (r.obj heap) → Reconciles t heap live pre r) := by
  apply imp_congr_right
  intro _
  have hahead := ahead_entries t
  have hn : ((pre ++ (key, r) :: post).map Prod.fst).Nodup := hsplit ▸ hahead.1
  have hget : t.streams.get? key = some r := mem_streams_entries.mp (by simp [hsplit])
  have hremoves := leakLoop_removes_iff heap now threshold (if t.hasNetwork then live else ⟨[], []⟩) [] hn
    (t := t) (by simp [hget])
  simp only [finalizes_table] at hremoves
  rw [← hsplit, ← checkForLeaks_eq, Dict.get?_eq_none] at hremoves
  constructor
  · intro h
    obtain ⟨hreached, hfin, hread⟩ := hremoves.mp h.removed
    exact ⟨(finalizes_iff live t.hasNetwork r).mp hfin, hread, hreached⟩
  · intro h
    have hfin := (finalizes_iff live t.hasNetwork r).mpr h.found
    refine ⟨hremoves.mpr ⟨h.reached, hfin, h.readable⟩, leakLoop_finalised _ _ _ _ _ _ _ hahead, ?_⟩
    intro leaked hleaked
    obtain ⟨es, flagged, hsub, hnot, hsame, hout⟩ := leakLoop_leaked t heap now threshold _ _ _ leaked hleaked
    simp only [finalizes_table] at hnot
    rw [List.nil_append] at hout
    exact ⟨es, hsub, fun hmem => hnot _ hmem hfin, hout ▸ hsame⟩

theorem deadStream_settles_iff_dead :
    (Signal (deadRecord.obj fun _ => some deadStream) →
      Settles deadTracker (fun _ => some deadStream) 5 3600 ⟨[2, 1], ["QmPeer"]⟩ "conn:1:stream:11" deadRecord) ↔
    (Signal (deadRecord.obj fun _ => some deadStream) →
      Reconciles deadTracker (fun _ => some deadStream) ⟨[2, 1], ["QmPeer"]⟩ [] deadRecord) :=
  deadStream_settles_iff deadTracker _ 5 3600 _ [] "conn:1:stream:11" deadRecord [] (by decide +kernel)

/-- The stream says that it is not closed, so nobody asks its connection. -/
def maskedStream : StreamObj :=
  { sampleStream 10 with isClosed := .ok (some false), swarmConn := .ok (some ⟨2, .ok (some true)⟩) }

theorem deadStream_settles_fails :
    ¬∀ (t : Tracker) (heap : Heap) (now threshold : ℚ) (live : LiveTable) (key : String) (r : StreamRecord),
      (key, r) ∈ t.streams.entries → Signal (r.obj heap) → Settles t heap now threshold live key r := by
  intro h
  let t : Tracker := (init.openedStream 1 0 maskedStream).1
  have hmem : ("conn:1:stream:11", deadRecord) ∈ t.streams.entries := by decide +kernel
  have hsignal : Signal (deadRecord.obj fun _ => some maskedStream) := .swarmConn _ ⟨2, .ok (some true)⟩ rfl rfl
  have hremoved := (h t _ 4000 3600 ⟨[2, 1], ["QmPeer"]⟩ _ _ hmem hsignal).removed
  revert hremoved
  decide +kernel

end IpfsLite.Tracker
