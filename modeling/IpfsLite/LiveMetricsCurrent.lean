import IpfsLite.LiveMetrics

namespace IpfsLite.Metrics

open Tracker Runs

def gauge {κ : Type} [DecidableEq κ] (g : Dict κ ℕ) (k : κ) : ℕ := (g.get? k).getD 0

def transports : List String := ["unknown", "quic-v1", "tcp", "websocket"]

def SwarmEntry.all : SwarmEntry → List SwarmConn
  | .conns cs => cs
  | .single c => [c]

def SwarmEntry.listed : SwarmEntry → List SwarmConn
  | .conns cs => cs
  | .single _ => []

def transport (c : SwarmConn) : String := (extractConnDetails c).transport

def direction (c : SwarmConn) : String := (extractConnDetails c).direction

def protocol (e : String × StreamRecord) : String := orUnknown e.2.protocol

structure Current (s : Scrape) (table : List SwarmEntry) : Prop where
  streams : ∀ p, gauge s.gauges.streamsActive p = (s.tracker.streams.entries.map protocol).count p
  transports : ∀ t ∈ transports, gauge s.gauges.swarmConnections (t, "all") =
    ((table.flatMap SwarmEntry.all).map transport).count t
  directions : ∀ d, gauge s.gauges.swarmConnections ("all", d) =
    ((table.flatMap SwarmEntry.all).map direction).count d

/-! Counts as dictionaries -/

theorem get?_increment (d : Dict String ℕ) (x k : String) :
    (increment d x).get? k = if k = x then some (gauge d x + 1) else d.get? k := Dict.get?_set ..

theorem get?_foldl_increment (xs : List String) (d : Dict String ℕ) (k : String) :
    (xs.foldl increment d).get? k = if k ∈ xs then some (gauge d k + xs.count k) else d.get? k := by
  induction xs generalizing d with
  | nil => simp
  | cons x xs ih =>
    rw [List.foldl_cons, ih, get?_increment, gauge, get?_increment]
    by_cases hx : k = x
    · subst hx
      by_cases hk : k ∈ xs
      · simp [hk, gauge, Nat.add_assoc, Nat.add_comm 1]
      · simp [hk, gauge, List.count_eq_zero.mpr hk]
    · have hne : x ≠ k := Ne.symm hx
      simp [hx, hne, gauge]

theorem get?_tally (xs : List String) (k : String) :
    (xs.foldl increment .empty).get? k = if xs.count k = 0 then none else some (xs.count k) := by
  rw [get?_foldl_increment]
  by_cases hk : k ∈ xs
  · have hcount : xs.count k ≠ 0 := fun h => List.count_eq_zero.mp h hk
    rw [if_pos hk, if_neg hcount, gauge, Dict.get?_empty, Option.getD_none, zero_add]
  · rw [if_neg hk, if_pos (List.count_eq_zero.mpr hk), Dict.get?_empty]

section

variable {κ : Type} [DecidableEq κ] {label : String → κ}

theorem get?_setCounts_of_ne {x : κ} (h : ∀ k, x ≠ label k) (counts : Dict String ℕ) (g : Dict κ ℕ) :
    (setCounts label counts g).get? x = g.get? x := by
  unfold setCounts
  induction counts.entries generalizing g with
  | nil => rfl
  | cons e es ih => rw [List.foldl_cons, ih, Dict.get?_set, if_neg (h e.1)]

theorem get?_setCounts (hl : Function.Injective label) (counts : Dict String ℕ) (g : Dict κ ℕ) (k : String) :
    (setCounts label counts g).get? (label k) = (counts.get? k).or (g.get? (label k)) := by
  obtain ⟨es, hn⟩ := counts
  change (es.foldl (fun g e => g.set (label e.1) e.2) g).get? (label k) = (es.lookup k).or _
  induction es generalizing g with
  | nil => rfl
  | cons e es ih =>
    obtain ⟨hfresh, hn⟩ := List.nodup_cons.mp hn
    rw [List.foldl_cons, ih _ hn, Dict.get?_set, Dict.lookup_pair]
    by_cases hk : k = e.1
    · have hnone : es.lookup k = none := Dict.lookup_eq_none.mpr (hk ▸ hfresh)
      simp [hk, hk ▸ hnone]
    · rw [if_neg fun h => hk (hl h), if_neg hk]

theorem gauge_setCounts (hl : Function.Injective label) (xs : List String) (g : Dict κ ℕ) (k : String) :
    gauge (setCounts label (xs.foldl increment .empty) g) (label k) =
      if xs.count k = 0 then gauge g (label k) else xs.count k := by
  rw [gauge, get?_setCounts hl, get?_tally]
  split_ifs <;> rfl

end

/-! The labels of a connection -/

theorem rawLayers_transport {l : Layers} (h : l.transport ∈ transports) (raw : Option String) :
    (rawLayers l raw).transport ∈ transports := by
  cases raw with
  | none => exact h
  | some name =>
    rw [rawLayers]
    split_ifs
    · exact h
    all_goals first | exact h | simp [transports]

theorem securedLayers_transport (l : Layers) (secured : Option String) :
    (securedLayers l secured).transport = l.transport := by
  cases secured with
  | none => rfl
  | some name =>
    rw [securedLayers]
    split_ifs <;> rfl

theorem muxerLayers_transport (name : String) : (muxerLayers name).transport ∈ transports := by
  unfold muxerLayers
  split_ifs <;> simp [transports]

theorem typeLayers_transport (c : SwarmConn) : (typeLayers c).transport ∈ transports := by
  unfold typeLayers
  cases c.muxedConn with
  | error e => simp [transports]
  | ok muxed =>
    have hmuxer : ((muxed.map fun m => muxerLayers m.name).getD {}).transport ∈ transports := by
      cases muxed with
      | none => simp [transports]
      | some m => exact muxerLayers_transport m.name
    dsimp only
    split
    · exact hmuxer
    · next secured _ =>
      have hsecured := securedLayers_transport ((muxed.map fun m => muxerLayers m.name).getD {}) secured
      rw [← hsecured] at hmuxer
      split
      · exact hmuxer
      · exact rawLayers_transport hmuxer _

theorem transport_mem (c : SwarmConn) : transport c ∈ transports := by
  have htypes := typeLayers_transport c
  change (addrLayers (typeLayers c) (remoteAddr c)).transport ∈ transports
  cases remoteAddr c with
  | none => exact htypes
  | some addr =>
    rw [addrLayers]
    split_ifs
    all_goals first | exact htypes | simp [transports]

/-! What one update does -/

theorem count_foldl (counts : ConnSnapshot → Dict String ℕ) (label : SwarmConn → String)
    (h : ∀ s c, counts (s.count c) = increment (counts s) (label c)) (cs : List SwarmConn) (s : ConnSnapshot) :
    counts (cs.foldl ConnSnapshot.count s) = (cs.map label).foldl increment (counts s) := by
  induction cs generalizing s with
  | nil => rfl
  | cons c cs ih => rw [List.foldl_cons, ih, h, List.map_cons, List.foldl_cons]

theorem countEntry_foldl (table : List SwarmEntry) (s : ConnSnapshot) :
    (table.foldl ConnSnapshot.countEntry s).byTransport =
        ((table.flatMap SwarmEntry.listed).map transport).foldl increment s.byTransport ∧
      (table.foldl ConnSnapshot.countEntry s).byDirection =
        ((table.flatMap SwarmEntry.listed).map direction).foldl increment s.byDirection := by
  induction table generalizing s with
  | nil => exact ⟨rfl, rfl⟩
  | cons e table ih =>
    obtain ⟨htransport, hdirection⟩ := ih (s.countEntry e)
    rw [List.foldl_cons, htransport, hdirection, List.flatMap_cons, List.map_append, List.map_append,
      List.foldl_append, List.foldl_append]
    cases e with
    | single c => exact ⟨rfl, rfl⟩
    | conns cs =>
      have htransports : (s.countEntry (.conns cs)).byTransport = (cs.map transport).foldl increment s.byTransport :=
        count_foldl ConnSnapshot.byTransport transport (fun _ _ => rfl) cs s
      have hdirections : (s.countEntry (.conns cs)).byDirection = (cs.map direction).foldl increment s.byDirection :=
        count_foldl ConnSnapshot.byDirection direction (fun _ _ => rfl) cs s
      rw [htransports, hdirections]
      exact ⟨rfl, rfl⟩

def counted (s : Scrape) (table : List SwarmEntry) (found : Bool) : List SwarmConn :=
  if s.tracker.hasNetwork || found then table.flatMap SwarmEntry.listed else []

variable {s : Scrape} {heap : Heap} {table : List SwarmEntry} {found : Bool}

theorem connectionSnapshot_counts (s : Scrape) (table : List SwarmEntry) (found : Bool) :
    (connectionSnapshot { s.tracker with hasNetwork := s.tracker.hasNetwork || found } table).byTransport =
        ((counted s table found).map transport).foldl increment .empty ∧
      (connectionSnapshot { s.tracker with hasNetwork := s.tracker.hasNetwork || found } table).byDirection =
        ((counted s table found).map direction).foldl increment .empty := by
  unfold connectionSnapshot counted
  dsimp only
  split_ifs
  · exact countEntry_foldl table {}
  · exact ⟨rfl, rfl⟩

theorem update_transports (t : String) (ht : t ∈ transports) :
    gauge (updateLiveMetrics s heap table found).gauges.swarmConnections (t, "all") =
      if ((counted s table found).map transport).count t = 0 then gauge s.gauges.swarmConnections (t, "all")
      else ((counted s table found).map transport).count t := by
  have hall : t ≠ "all" := by
    rintro rfl
    simp [transports] at ht
  obtain ⟨htransport, hdirection⟩ := connectionSnapshot_counts s table found
  change gauge (setCounts (("all", ·)) (connectionSnapshot _ table).byDirection
    (setCounts ((·, "all")) (connectionSnapshot _ table).byTransport s.gauges.swarmConnections)) (t, "all") = _
  rw [gauge, get?_setCounts_of_ne fun d h => hall (congrArg Prod.fst h), htransport, ← gauge]
  exact gauge_setCounts (fun _ _ h => congrArg Prod.fst h) _ _ t

theorem update_directions (d : String) :
    gauge (updateLiveMetrics s heap table found).gauges.swarmConnections ("all", d) =
      if ((counted s table found).map direction).count d = 0 then gauge s.gauges.swarmConnections ("all", d)
      else ((counted s table found).map direction).count d := by
  obtain ⟨htransport, hdirection⟩ := connectionSnapshot_counts s table found
  -- no transport is called "all", so the labels of the transports leave the directions alone
  have hkeep : (setCounts ((·, "all")) (connectionSnapshot { s.tracker with
      hasNetwork := s.tracker.hasNetwork || found } table).byTransport s.gauges.swarmConnections).get?
        ("all", d) = s.gauges.swarmConnections.get? ("all", d) := by
    by_cases hd : d = "all"
    · have hnot : "all" ∉ (counted s table found).map transport := by
        intro hmem
        obtain ⟨c, -, hc⟩ := List.mem_map.mp hmem
        have ht := transport_mem c
        rw [hc] at ht
        simp [transports] at ht
      subst hd
      have hinjective : Function.Injective fun t : String => (t, "all") := fun _ _ h => congrArg Prod.fst h
      have hset := get?_setCounts hinjective (connectionSnapshot { s.tracker with
        hasNetwork := s.tracker.hasNetwork || found } table).byTransport s.gauges.swarmConnections "all"
      rw [hset, htransport, get?_tally, if_pos (List.count_eq_zero.mpr hnot)]
      rfl
    · exact get?_setCounts_of_ne (fun k h => hd (congrArg Prod.snd h)) _ _
  change gauge (setCounts (("all", ·)) (connectionSnapshot _ table).byDirection
    (setCounts ((·, "all")) (connectionSnapshot _ table).byTransport s.gauges.swarmConnections)) ("all", d) = _
  rw [hdirection, gauge_setCounts fun _ _ h => congrArg Prod.snd h, gauge, hkeep]
  rfl

def refreshedProtocol (heap : Heap) (r : StreamRecord) : Option String :=
  r.protocol.or ((r.obj heap).bind streamProtocol)

theorem refreshRecordMetadata_protocol (t : Tracker) (heap : Heap) (r : StreamRecord) :
    (t.refreshRecordMetadata heap r).2.protocol = refreshedProtocol heap r := by
  have hcount (u : Tracker) (r' : StreamRecord) : (u.countProtocol r').2.protocol = r'.protocol := by
    unfold countProtocol
    split
    · rfl
    · split_ifs <;> rfl
  have hdir (u : Tracker) (r' : StreamRecord) (obj : Option StreamObj) :
      (u.refreshDirection r' obj).2.protocol = r'.protocol := by
    unfold refreshDirection
    split_ifs
    · dsimp only
      split <;> rfl
    · rfl
  unfold refreshRecordMetadata
  dsimp only
  rw [hcount, hdir]
  rfl

theorem refreshLoop_protocol {t : Tracker} {rest : List (String × StreamRecord)} (hahead : Ahead t rest)
    (k : String) : ((refreshLoop heap rest t).streams.get? k).map StreamRecord.protocol =
      (t.streams.get? k).map fun r => if k ∈ rest.map Prod.fst then refreshedProtocol heap r else r.protocol := by
  induction rest generalizing t with
  | nil => simp [refreshLoop]
  | cons e rest ih =>
    obtain ⟨key, r⟩ := e
    have hget : t.streams.get? key = some r := hahead.2 _ List.mem_cons_self
    obtain ⟨htouch, -, hnew⟩ := refreshAt_touched heap hget
    have hfresh : key ∉ rest.map Prod.fst := (List.nodup_cons.mp hahead.1).1
    rw [refreshLoop, ih (hahead.next htouch.others)]
    by_cases hk : k = key
    · subst hk
      have hmem : k ∈ ((k, r) :: rest).map Prod.fst := List.mem_cons_self
      rw [hnew, hget, Option.map_some, Option.map_some, if_neg hfresh, if_pos hmem,
        ← refreshRecordMetadata_protocol t heap r]
      rfl
    · rw [htouch.others k hk, List.map_cons]
      simp only [List.mem_cons, hk, false_or]

theorem mem_protocols_refreshAll (t : Tracker) (heap : Heap) (p : String) :
    p ∈ (t.refreshAll heap).streams.entries.map protocol ↔
      ∃ e ∈ t.streams.entries, orUnknown (refreshedProtocol heap e.2) = p := by
  have hprotocol (k : String) : ((t.refreshAll heap).streams.get? k).map StreamRecord.protocol =
      (t.streams.get? k).map (refreshedProtocol heap) := by
    rw [refreshAll, refreshLoop_protocol (ahead_entries t)]
    cases hk : t.streams.get? k with
    | none => rfl
    | some r =>
      have hmem : k ∈ t.streams.entries.map Prod.fst := Dict.mem_keys.mpr ⟨r, hk⟩
      rw [Option.map_some, if_pos hmem, Option.map_some]
  constructor
  · intro h
    obtain ⟨⟨k, r'⟩, he, rfl⟩ := List.mem_map.mp h
    have hk := hprotocol k
    rw [Dict.get?_eq_some.mpr he] at hk
    obtain ⟨r, hr, hp⟩ := Option.map_eq_some_iff.mp hk.symm
    exact ⟨(k, r), Dict.get?_eq_some.mp hr, congrArg orUnknown hp⟩
  · rintro ⟨⟨k, r⟩, he, rfl⟩
    have hk := hprotocol k
    rw [Dict.get?_eq_some.mpr he] at hk
    obtain ⟨r', hr', hp⟩ := Option.map_eq_some_iff.mp hk
    exact List.mem_map.mpr ⟨(k, r'), Dict.get?_eq_some.mp hr', congrArg orUnknown hp⟩

theorem update_streams (p : String) :
    gauge (updateLiveMetrics s heap table found).gauges.streamsActive p =
      if ((updateLiveMetrics s heap table found).tracker.streams.entries.map protocol).count p = 0
      then gauge s.gauges.streamsActive p
      else ((updateLiveMetrics s heap table found).tracker.streams.entries.map protocol).count p :=
  gauge_setCounts Function.injective_id _ s.gauges.streamsActive p

/-- All that are live are listed, and there are some if the gauge is not 0. Or none is listed, and the gauge
has been left at the number of those that are live. -/
def Shows (value listed live : ℕ) : Prop :=
  (listed = live ∧ (value ≠ 0 → 0 < live)) ∨ (listed = 0 ∧ value = live)

theorem ite_eq_iff_shows {value listed live : ℕ} :
    (if listed = 0 then value else listed) = live ↔ Shows value listed live := by
  unfold Shows
  split_ifs with h
  · omega
  · omega

structure KeepsLabels (s : Scrape) (heap : Heap) (table : List SwarmEntry) (found : Bool) : Prop where
  streams : ∀ p, gauge s.gauges.streamsActive p ≠ 0 →
    ∃ e ∈ s.tracker.streams.entries, orUnknown (refreshedProtocol heap e.2) = p
  transports : ∀ t ∈ transports, Shows (gauge s.gauges.swarmConnections (t, "all"))
    (((counted s table found).map transport).count t) (((table.flatMap SwarmEntry.all).map transport).count t)
  directions : ∀ d, Shows (gauge s.gauges.swarmConnections ("all", d))
    (((counted s table found).map direction).count d) (((table.flatMap SwarmEntry.all).map direction).count d)

/-- No label is left whose gauge is not 0 and that nothing live has any more, and every live connection is
listed. -/
structure LabelsLive (s : Scrape) (heap : Heap) (table : List SwarmEntry) (found : Bool) : Prop where
  streams : ∀ p, gauge s.gauges.streamsActive p ≠ 0 →
    ∃ e ∈ s.tracker.streams.entries, orUnknown (refreshedProtocol heap e.2) = p
  listed : counted s table found = table.flatMap SwarmEntry.all
  transports : ∀ t, gauge s.gauges.swarmConnections (t, "all") ≠ 0 →
    ∃ c ∈ table.flatMap SwarmEntry.all, transport c = t
  directions : ∀ d, gauge s.gauges.swarmConnections ("all", d) ≠ 0 →
    ∃ c ∈ table.flatMap SwarmEntry.all, direction c = d

theorem LabelsLive.keeps (h : LabelsLive s heap table found) : KeepsLabels s heap table found := by
  have hlive (label : SwarmConn → String) (l : String) (hl : ∃ c ∈ table.flatMap SwarmEntry.all, label c = l) :
      0 < ((table.flatMap SwarmEntry.all).map label).count l :=
    List.count_pos_iff.mpr (List.mem_map.mpr hl)
  refine ⟨h.streams, fun t _ => ?_, fun d => ?_⟩
  · rw [h.listed]
    exact .inl ⟨rfl, fun hne => hlive transport t (h.transports t hne)⟩
  · rw [h.listed]
    exact .inl ⟨rfl, fun hne => hlive direction d (h.directions d hne)⟩

theorem update_current_iff :
    Current (updateLiveMetrics s heap table found) table ↔ KeepsLabels s heap table found := by
  have hstreams (p : String) : gauge (updateLiveMetrics s heap table found).gauges.streamsActive p =
      ((updateLiveMetrics s heap table found).tracker.streams.entries.map protocol).count p ↔
        (gauge s.gauges.streamsActive p ≠ 0 →
          ∃ e ∈ s.tracker.streams.entries, orUnknown (refreshedProtocol heap e.2) = p) := by
    have hmem : p ∈ (updateLiveMetrics s heap table found).tracker.streams.entries.map protocol ↔
        ∃ e ∈ s.tracker.streams.entries, orUnknown (refreshedProtocol heap e.2) = p :=
      mem_protocols_refreshAll _ heap p
    rw [update_streams, ← hmem]
    generalize (updateLiveMetrics s heap table found).tracker.streams.entries.map protocol = live
    by_cases hlive : p ∈ live
    · have hcount : live.count p ≠ 0 := fun h => List.count_eq_zero.mp h hlive
      simp [hcount, hlive]
    · simp [hlive, List.count_eq_zero.mpr hlive]
  constructor
  · intro h
    exact ⟨fun p => (hstreams p).mp (h.streams p),
      fun t ht => ite_eq_iff_shows.mp ((update_transports t ht).symm.trans (h.transports t ht)),
      fun d => ite_eq_iff_shows.mp ((update_directions d).symm.trans (h.directions d))⟩
  · intro h
    exact ⟨fun p => (hstreams p).mpr (h.streams p),
      fun t ht => (update_transports t ht).trans (ite_eq_iff_shows.mpr (h.transports t ht)),
      fun d => (update_directions d).trans (ite_eq_iff_shows.mpr (h.directions d))⟩

def UpToDate (s : Scrape) : Event → Prop
  | .call _ => True
  | .update _ table _ => Current s table

def LabelsKept (s : Scrape) : Event → Prop
  | .call _ => True
  | .update heap table found => KeepsLabels s heap table found

def AllLive (s : Scrape) : Event → Prop
  | .call _ => True
  | .update heap table found => LabelsLive s heap table found

theorem liveMetrics_iff (events : List Event) (s : Scrape) :
    (Run (fun s e s' => s' = step s e ∧ UpToDate s' e) .init events s ↔
      Run (fun s e s' => s' = step s e ∧ LabelsKept s e) .init events s) ∧
    (Run (fun s e s' => s' = step s e ∧ AllLive s e) .init events s →
      Run (fun s e s' => s' = step s e ∧ UpToDate s' e) .init events s) := by
  have hiff : Run (fun s e s' => s' = step s e ∧ UpToDate s' e) .init events s ↔
      Run (fun s e s' => s' = step s e ∧ LabelsKept s e) .init events s := by
    apply Run.congr_of_invariant (P := fun _ => True)
    · exact fun _ _ _ _ _ => trivial
    · rintro s e s' -
      apply and_congr_right
      rintro rfl
      cases e with
      | call call => exact Iff.rfl
      | update heap table found => exact update_current_iff
    · trivial
  refine ⟨hiff, fun h => hiff.mpr (h.mono ?_)⟩
  rintro s e s' ⟨he, hlive⟩
  refine ⟨he, ?_⟩
  cases e with
  | call call => trivial
  | update heap table found => exact hlive.keeps

theorem liveMetrics_fails :
    ¬∀ (events : List Event) (heap : Heap) (table : List SwarmEntry) (found : Bool) (s : Scrape),
      Run (fun s e s' => s' = step s e) .init (events ++ [.update heap table found]) s → Current s table := by
  intro h
  let events : List Event := [.call (.openedStream 1 0 (sampleStream 10)),
    .update (fun _ => some (sampleStream 10)) [] true,
    .call (.closedStream 2 (fun _ => some (sampleStream 10)) (sampleStream 10))]
  have hrun : Run (fun s e s' => s' = step s e) .init
      (events ++ [Event.update (fun _ => none) [] true])
      ((events ++ [Event.update (fun _ => none) [] true]).foldl step .init) :=
    .head rfl (.head rfl (.head rfl (.single rfl)))
  have hstale := (h events _ _ _ _ hrun).streams "unknown"
  revert hstale
  decide +kernel

end IpfsLite.Metrics
