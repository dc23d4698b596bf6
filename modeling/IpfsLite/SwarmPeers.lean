import IpfsLite.Lib.Rounding
import IpfsLite.TrackerConnMeta
import Mathlib.Data.List.Sort

namespace IpfsLite.Tracker.Conns

open Runs

inductive AgeTier
  | over30m
  | from10mTo30m
  | from5mTo10m
  | from2mTo5m
  | under2m
deriving DecidableEq

def AgeTier.str : AgeTier → String
  | .over30m => "over_30m"
  | .from10mTo30m => "10m_to_30m"
  | .from5mTo10m => "5m_to_10m"
  | .from2mTo5m => "2m_to_5m"
  | .under2m => "under_2m"

def ageTier (durationSecs : ℚ) : AgeTier :=
  if 1800 ≤ durationSecs then .over30m
  else if 600 ≤ durationSecs then .from10mTo30m
  else if 300 ≤ durationSecs then .from5mTo10m
  else if 120 ≤ durationSecs then .from2mTo5m
  else .under2m

structure SwarmPeer where
  peer : String
  addrs : List String
  connectedAt : Option String
  durationSeconds : ℚ
  transport : String
  direction : String
  ageTier : String
  streamsTotal : ℕ
  streamsOutbound : ℕ
  streamsInbound : ℕ
deriving DecidableEq

structure SwarmPeers where
  count : ℕ
  peers : List SwarmPeer

/-- The loop over `_conn_meta.values()`. -/
def takeOlder (map : Dict String ConnMeta) (m : ConnMeta) : Dict String ConnMeta :=
  if m.peerId = "" ∨ m.peerId = "unknown" then map
  else
    match map.get? m.peerId with
    | none => map.set m.peerId m
    | some older => if m.startMono < older.startMono then map.set m.peerId m else map

def connMetas (t : Tracker) : List ConnMeta := (t.connMeta.entries.map Prod.snd).filterMap (t.metas[·]?)

def connMetaMap (tracker : Option Tracker) : Dict String ConnMeta :=
  match tracker with
  | none => .empty
  | some t => (connMetas t).foldl takeOlder .empty

section Listing

variable (tracker : Option Tracker) (addrs : String → List String) (now : ℚ)

def swarmPeer (pidStr : String) : SwarmPeer :=
  let found := (connMetaMap tracker).get? pidStr
  let durationSecs := (found.map fun m => roundTo 1 (now - m.startMono)).getD 0
  let streamStats := tracker.bind fun t => t.peerStreamStats.get? pidStr
  { peer := pidStr
    addrs := addrs pidStr
    connectedAt := found.map ConnMeta.connectedAt
    durationSeconds := durationSecs
    transport := (found.map fun m => m.details.transport).getD "unknown"
    direction := (found.map fun m => m.details.direction).getD "unknown"
    ageTier := (ageTier durationSecs).str
    streamsTotal := (streamStats.map PeerStreamStats.currentOpen).getD 0
    streamsOutbound := (streamStats.map PeerStreamStats.currentOpenOutbound).getD 0
    streamsInbound := (streamStats.map PeerStreamStats.currentOpenInbound).getD 0 }

def listLoop : List String → (seen : List String) → List SwarmPeer
  | [], _ => []
  | pidStr :: rest, seen =>
    if pidStr ∈ seen then listLoop rest seen
    else swarmPeer tracker addrs now pidStr :: listLoop rest (pidStr :: seen)

/-- `connections` are the keys of `network.connections`. -/
def listConnectedPeers (connections : List String) : SwarmPeers :=
  let result := (listLoop tracker addrs now connections []).insertionSort fun a b =>
    b.durationSeconds ≤ a.durationSeconds
  ⟨result.length, result⟩

end Listing

section Oldest

inductive Oldest (ms : List ConnMeta) (p : String) : Option ConnMeta → Prop
  | none (hnone : ∀ m ∈ ms, m.peerId ≠ p) : Oldest ms p none
  | some {m : ConnMeta} (hm : m ∈ ms) (hp : m.peerId = p)
    (hmin : ∀ m' ∈ ms, m'.peerId = p → m.startMono ≤ m'.startMono) : Oldest ms p (some m)

theorem oldest_foldl {p : String} (hp : p ≠ "" ∧ p ≠ "unknown") (ms : List ConnMeta) :
    Oldest ms p ((ms.foldl takeOlder .empty).get? p) := by
  induction ms using List.reverseRecOn with
  | nil => exact .none (by simp)
  | append_singleton ms m ih =>
    rw [List.foldl_append, List.foldl_cons, List.foldl_nil]
    generalize ms.foldl takeOlder .empty = d at ih
    by_cases hm : m.peerId = p
    · have hnamed : ¬(m.peerId = "" ∨ m.peerId = "unknown") := by
        rw [hm, not_or]
        exact hp
      rw [takeOlder, if_neg hnamed, hm]
      cases hd : d.get? p with
      | none =>
        rw [hd] at ih
        obtain ⟨hnone⟩ := ih
        rw [Dict.get?_set, if_pos rfl]
        refine .some (by simp) hm fun m' hm' hp' => ?_
        rcases List.mem_append.mp hm' with hm' | hm'
        · exact absurd hp' (hnone m' hm')
        · rw [List.mem_singleton.mp hm']
      | some older =>
        rw [hd] at ih
        obtain _ | ⟨holder, hpeer, hmin⟩ := ih
        dsimp only
        split_ifs with hless
        · rw [Dict.get?_set, if_pos rfl]
          refine .some (by simp) hm fun m' hm' hp' => ?_
          rcases List.mem_append.mp hm' with hm' | hm'
          · exact hless.le.trans (hmin m' hm' hp')
          · rw [List.mem_singleton.mp hm']
        · rw [hd]
          refine .some (List.mem_append_left _ holder) hpeer fun m' hm' hp' => ?_
          rcases List.mem_append.mp hm' with hm' | hm'
          · exact hmin m' hm' hp'
          · rw [List.mem_singleton.mp hm']
            exact not_lt.mp hless
    · have hsame : (takeOlder d m).get? p = d.get? p := by
        have hset : (d.set m.peerId m).get? p = d.get? p := by
          rw [Dict.get?_set, if_neg fun hc => hm hc.symm]
        unfold takeOlder
        split_ifs
        · rfl
        · split
          · exact hset
          · split_ifs
            · exact hset
            · rfl
      rw [hsame]
      generalize d.get? p = found at ih
      cases ih with
      | none hnone =>
        refine .none fun m' hm' => ?_
        rcases List.mem_append.mp hm' with hm' | hm'
        · exact hnone m' hm'
        · rwa [List.mem_singleton.mp hm']
      | some holder hpeer hmin =>
        refine .some (List.mem_append_left _ holder) hpeer fun m' hm' hp' => ?_
        rcases List.mem_append.mp hm' with hm' | hm'
        · exact hmin m' hm' hp'
        · rw [List.mem_singleton.mp hm'] at hp'
          exact absurd hp' hm

end Oldest

section Order

variable (tracker : Option Tracker) (addrs : String → List String) (now : ℚ)

theorem mem_listLoop {connections seen : List String} {e : SwarmPeer} :
    e ∈ listLoop tracker addrs now connections seen ↔
      ∃ p ∈ connections, p ∉ seen ∧ e = swarmPeer tracker addrs now p := by
  induction connections generalizing seen with
  | nil => simp [listLoop]
  | cons p ps ih =>
    rw [listLoop]
    split_ifs with hseen
    · rw [ih]
      simp [hseen]
    · rw [List.mem_cons, ih]
      constructor
      · rintro (rfl | ⟨q, hq, hnot, rfl⟩)
        · exact ⟨p, by simp, hseen, rfl⟩
        · exact ⟨q, by simp [hq], fun hc => hnot (by simp [hc]), rfl⟩
      · rintro ⟨q, hq, hnot, rfl⟩
        by_cases hqp : q = p
        · exact .inl (by rw [hqp])
        · exact .inr ⟨q, by simpa [hqp] using hq, by simp [hqp, hnot], rfl⟩

theorem nodup_listLoop (connections seen : List String) :
    ((listLoop tracker addrs now connections seen).map SwarmPeer.peer).Nodup := by
  induction connections generalizing seen with
  | nil => exact List.nodup_nil
  | cons p ps ih =>
    rw [listLoop]
    split_ifs with hseen
    · exact ih seen
    · rw [List.map_cons, List.nodup_cons]
      refine ⟨fun hmem => ?_, ih (p :: seen)⟩
      obtain ⟨e, he, hpeer⟩ := List.mem_map.mp hmem
      obtain ⟨q, -, hnot, rfl⟩ := (mem_listLoop tracker addrs now).mp he
      exact hnot (List.mem_cons.mpr (.inl hpeer))

theorem listConnectedPeers_perm (connections : List String) :
    ((listConnectedPeers tracker addrs now connections).peers.map SwarmPeer.peer).Perm connections.dedup := by
  have hsorted := (List.perm_insertionSort (fun a b : SwarmPeer => b.durationSeconds ≤ a.durationSeconds)
    (listLoop tracker addrs now connections [])).map SwarmPeer.peer
  refine hsorted.trans ?_
  rw [List.perm_ext_iff_of_nodup (nodup_listLoop tracker addrs now connections []) (List.nodup_dedup _)]
  intro p
  rw [List.mem_map, List.mem_dedup]
  constructor
  · rintro ⟨e, he, rfl⟩
    obtain ⟨q, hq, -, rfl⟩ := (mem_listLoop tracker addrs now).mp he
    exact hq
  · intro hp
    exact ⟨_, (mem_listLoop tracker addrs now).mpr ⟨p, hp, List.not_mem_nil, rfl⟩, rfl⟩

theorem listConnectedPeers_sorted (connections : List String) :
    (listConnectedPeers tracker addrs now connections).peers.Pairwise
      fun a b => b.durationSeconds ≤ a.durationSeconds := by
  have : Std.Total fun a b : SwarmPeer => b.durationSeconds ≤ a.durationSeconds :=
    ⟨fun a b => le_total b.durationSeconds a.durationSeconds⟩
  have : IsTrans SwarmPeer fun a b => b.durationSeconds ≤ a.durationSeconds :=
    ⟨fun _ _ _ hab hbc => hbc.trans hab⟩
  exact List.pairwise_insertionSort _ _

end Order

section Live

def RecordedAt (es : List Event) (l : Live) : Prop :=
  ∃ now nowTs, Event.connected l.conn now nowTs ∈ es ∧ l.recorded = .new l.conn.peer l.conn.obj now nowTs

theorem RecordedAt.append {es : List Event} {l : Live} (h : RecordedAt es l) (e : Event) :
    RecordedAt (es ++ [e]) l := by
  obtain ⟨now, nowTs, hmem, hrecorded⟩ := h
  exact ⟨now, nowTs, List.mem_append_left _ hmem, hrecorded⟩

theorem recorded_run {es : List Event} {s : Net} (h : Run (fun u e v => step u e = some v) .init es s) :
    ∀ l ∈ s.live, RecordedAt es l := by
  refine h.history (P := fun es s => ∀ l ∈ s.live, RecordedAt es l) ?_ fun l hl => absurd hl List.not_mem_nil
  intro es u e v hu hs l hl
  cases e with
  | connected c now nowTs =>
    simp only [step] at hs
    split_ifs at hs
    obtain rfl := Option.some.inj hs
    rcases List.mem_cons.mp hl with rfl | hl
    · exact ⟨now, nowTs, by simp, rfl⟩
    · exact (hu l hl).append _
  | disconnected c now nowTs =>
    simp only [step] at hs
    split_ifs at hs
    obtain rfl := Option.some.inj hs
    exact (hu l (List.mem_filter.mp hl).1).append _

theorem mem_connMetas {n : Net} (hk : Kept n) {m : ConnMeta} :
    m ∈ connMetas n.tracker ↔ ∃ l ∈ n.live, l.recorded = m := by
  constructor
  · intro hm
    obtain ⟨ref, href, hget⟩ := List.mem_filterMap.mp hm
    obtain ⟨⟨k, ref⟩, hentry, rfl⟩ := List.mem_map.mp href
    have hkey : n.tracker.connMeta.get? k = some ref := Dict.get?_eq_some.mpr hentry
    obtain ⟨l, hl, hkl⟩ := List.mem_flatMap.mp (hk.only k (Dict.mem_keys.mpr ⟨ref, hkey⟩))
    have hrecorded := hk.live l hl k hkl
    rw [metaAt, hkey, Option.bind_some, hget] at hrecorded
    exact ⟨l, hl, (Option.some.inj hrecorded).symm⟩
  · rintro ⟨l, hl, rfl⟩
    have hrecorded := hk.live l hl l.conn.id List.mem_cons_self
    obtain ⟨ref, hkey, hget⟩ := Option.bind_eq_some_iff.mp hrecorded
    exact List.mem_filterMap.mpr ⟨ref, List.mem_map.mpr ⟨(l.conn.id, ref), Dict.get?_eq_some.mp hkey, rfl⟩, hget⟩

structure TellsOldest (es : List Event) (s : Net) (now : ℚ) (e : SwarmPeer) (c : Conn) (start : ℚ) (startTs : String) :
    Prop where
  peer : c.peer = e.peer
  event : Event.connected c start startTs ∈ es
  oldest : ∀ l ∈ s.live, l.conn.peer = e.peer → start ≤ l.recorded.startMono
  duration : e.durationSeconds = roundTo 1 (now - start)
  connectedAt : e.connectedAt = some startTs
  transport : e.transport = c.details.transport
  direction : e.direction = c.details.direction
  ageTier : e.ageTier = (ageTier e.durationSeconds).str

theorem kept_run {es : List Event} {s : Net}
    (h : Run (fun u e v => step u e = some v ∧ SweepsNothing u e) .init es s) : Wf s ∧ Kept s := by
  refine h.invariant (P := fun s => Wf s ∧ Kept s) ?_ ⟨wf_init, kept_init⟩
  rintro u e v ⟨hw, hk⟩ ⟨hs, hsweeps⟩
  obtain ⟨hwf, hiff⟩ := step_kept hw hk hs
  exact ⟨hwf, hiff.mpr hsweeps⟩

theorem tellsOldest {es : List Event} {s : Net}
    (h : Run (fun u e v => step u e = some v ∧ SweepsNothing u e) .init es s) (addrs : String → List String)
    (now : ℚ) {p : String} (hp : p ≠ "" ∧ p ≠ "unknown") (hlive : ∃ l ∈ s.live, l.conn.peer = p) :
    ∃ l ∈ s.live, ∃ start startTs,
      TellsOldest es s now (swarmPeer (some s.tracker) addrs now p) l.conn start startTs := by
  obtain ⟨hwf, hkept⟩ := kept_run h
  have hrecorded := recorded_run (h.mono fun _ _ _ hs => hs.1)
  have holdest := oldest_foldl hp (connMetas s.tracker)
  cases hfound : ((connMetas s.tracker).foldl takeOlder .empty).get? p with
  | none =>
    rw [hfound] at holdest
    obtain ⟨hnone⟩ := holdest
    obtain ⟨l, hl, hpeer⟩ := hlive
    have hmem := (mem_connMetas hkept).mpr ⟨l, hl, rfl⟩
    exact absurd ((hwf.peers l hl).trans hpeer) (hnone _ hmem)
  | some m =>
    rw [hfound] at holdest
    obtain _ | ⟨hm, hpeer, hmin⟩ := holdest
    obtain ⟨l, hl, rfl⟩ := (mem_connMetas hkept).mp hm
    obtain ⟨start, startTs, hevent, hnew⟩ := hrecorded l hl
    have hmap : (connMetaMap (some s.tracker)).get? p = some (.new l.conn.peer l.conn.obj start startTs) := by
      rw [← hnew]
      exact hfound
    refine ⟨l, hl, start, startTs, ?_, hevent, ?_, ?_, ?_, ?_, ?_, rfl⟩
    · exact (hwf.peers l hl).symm.trans hpeer
    · intro l' hl' hpeer'
      have hless := hmin l'.recorded ((mem_connMetas hkept).mpr ⟨l', hl', rfl⟩) ((hwf.peers l' hl').trans hpeer')
      rwa [hnew] at hless
    all_goals simp only [swarmPeer, hmap, Option.map_some, Option.getD_some]
    all_goals rfl

end Live

/-- In every run of connections that open and close, unless a sweep has thrown metadata away: the listing has
each connected peer once, the longest connected first, and tells of the oldest of its live connections. -/
theorem swarmPeers_listed (es : List Event) (s : Net)
    (h : Run (fun u e v => step u e = some v ∧ SweepsNothing u e) .init es s) (addrs : String → List String)
    (now : ℚ) (connections : List String)
    (hconnections : ∀ p ∈ connections, (p ≠ "" ∧ p ≠ "unknown") ∧ ∃ l ∈ s.live, l.conn.peer = p) :
    let listed := listConnectedPeers (some s.tracker) addrs now connections
    listed.count = connections.dedup.length ∧
      (listed.peers.map SwarmPeer.peer).Perm connections.dedup ∧
      (listed.peers.Pairwise fun a b => b.durationSeconds ≤ a.durationSeconds) ∧
      ∀ e ∈ listed.peers, ∃ l ∈ s.live, ∃ start startTs, TellsOldest es s now e l.conn start startTs := by
  have hperm := listConnectedPeers_perm (some s.tracker) addrs now connections
  refine ⟨?_, hperm, listConnectedPeers_sorted _ addrs now connections, fun e he => ?_⟩
  · rw [← hperm.length_eq, List.length_map]
    rfl
  · have hmem := (List.perm_insertionSort (fun a b : SwarmPeer => b.durationSeconds ≤ a.durationSeconds) _).mem_iff.mp he
    obtain ⟨p, hp, -, rfl⟩ := (mem_listLoop _ addrs now).mp hmem
    exact tellsOldest h addrs now (hconnections p hp).1 (hconnections p hp).2

def threeConnected : List Event :=
  [.connected ⟨1, some 2, some "QmA", ⟨"outbound", "tcp", "Noise", "yamux", none⟩⟩ 10 "t10",
    .connected ⟨3, none, some "QmB", ⟨"inbound", "quic", "Noise", "quic", none⟩⟩ 200 "t200",
    .connected ⟨4, none, some "QmA", ⟨"inbound", "quic", "Noise", "quic", none⟩⟩ 300 "t300"]

def listedAt (now : ℚ) (s : Net) : List SwarmPeer :=
  (listConnectedPeers (some s.tracker) (fun _ => []) now ["QmB", "QmA"]).peers

def listsThree (s : Net) : Bool :=
  (listedAt 1000 s).map (fun e => (e.peer, e.durationSeconds, e.ageTier)) =
      [("QmA", 990, "10m_to_30m"), ("QmB", 800, "10m_to_30m")] ∧
    (∃ l ∈ s.live, l.conn.peer = "QmA") ∧ ∃ l ∈ s.live, l.conn.peer = "QmB"

theorem swarmPeers_listed_three : ∃ s, listsThree s = true ∧
    ∀ e ∈ listedAt 1000 s, ∃ l ∈ s.live, ∃ start startTs, TellsOldest threeConnected s 1000 e l.conn start startTs := by
  obtain ⟨s, hrun, hlists⟩ := exists_run step .init threeConnected listsThree (by decide +kernel)
  obtain ⟨-, hA, hB⟩ := of_decide_eq_true hlists
  have hsweeps : Run (fun u e v => step u e = some v ∧ SweepsNothing u e) .init threeConnected s := by
    have hopen := hrun.restrict (p := fun e => ∀ u, SweepsNothing u e) (by simp [threeConnected, SweepsNothing])
    exact hopen.mono fun u e v hs => ⟨hs.1, hs.2 u⟩
  have hconnections : ∀ p ∈ ["QmB", "QmA"], (p ≠ "" ∧ p ≠ "unknown") ∧ ∃ l ∈ s.live, l.conn.peer = p := by
    intro p hp
    simp only [List.mem_cons, List.not_mem_nil, or_false] at hp
    rcases hp with rfl | rfl
    · exact ⟨by decide, hB⟩
    · exact ⟨by decide, hA⟩
  exact ⟨s, hlists, (swarmPeers_listed _ s hsweeps (fun _ => []) 1000 _ hconnections).2.2.2⟩

end IpfsLite.Tracker.Conns
