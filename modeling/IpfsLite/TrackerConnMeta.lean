import IpfsLite.Lib.Runs
import IpfsLite.Tracker

namespace IpfsLite.Tracker.Conns

open Runs

/-- A connection whose attributes can be read, with the same peer id at both events. -/
structure Conn where
  id : ObjId
  muxed : Option ObjId
  peerId : Option String
  details : ConnDetails
deriving DecidableEq

def Conn.obj (c : Conn) : ConnObj := ⟨c.id, .ok c.muxed, .ok c.peerId, c.details⟩

def Conn.ids (c : Conn) : List ObjId := c.id :: c.muxed.toList

def Conn.peer (c : Conn) : String := orUnknown c.peerId

structure Live where
  conn : Conn
  recorded : ConnMeta

structure Net where
  tracker : Tracker
  live : List Live

def Net.init : Net := ⟨Tracker.init, []⟩

inductive Event
  | connected (conn : Conn) (now : ℚ) (nowTs : String)
  | disconnected (conn : Conn) (now : ℚ) (nowTs : String)

def Net.ids (n : Net) : List ObjId := n.live.flatMap fun l => l.conn.ids

def step (n : Net) : Event → Option Net
  | .connected c now nowTs =>
    if c.ids.Nodup ∧ ∀ k ∈ c.ids, k ∉ n.ids then
      some ⟨(n.tracker.connected now nowTs c.obj).1, ⟨c, .new c.peer c.obj now nowTs⟩ :: n.live⟩
    else none
  | .disconnected c now nowTs =>
    if c ∈ n.live.map Live.conn then
      some ⟨(n.tracker.disconnected now nowTs (fun _ => none) c.obj).1,
        n.live.filter fun l => l.conn ≠ c⟩
    else none

def metaAt (t : Tracker) (k : ObjId) : Option ConnMeta := (t.connMeta.get? k).bind (t.metas[·]?)

structure Kept (n : Net) : Prop where
  live : ∀ l ∈ n.live, ∀ k ∈ l.conn.ids, metaAt n.tracker k = some l.recorded
  only : ∀ k ∈ n.tracker.connMeta.keys, k ∈ n.ids

def others (t : Tracker) (c : Conn) : List (ObjId × ℕ) := (t.connMeta.eraseAll c.ids).entries

/-- At a `disconnected` event at most 2000 peers have stats, or at most 500 entries of `_conn_meta`
belong to other connections, or none of these entries is older than 600 seconds. -/
def SweepsNothing (n : Net) : Event → Prop
  | .connected .. => True
  | .disconnected c now _ =>
    n.tracker.stats.entries.length ≤ 2000 ∨ (others n.tracker c).length ≤ 500 ∨
      ∀ e ∈ others n.tracker c, ∀ m, n.tracker.metas[e.2]? = some m → now - m.startMono ≤ 600

structure Wf (n : Net) : Prop where
  distinct : n.ids.Nodup
  peers : ∀ l ∈ n.live, l.recorded.peerId = l.conn.peer
  noStreams : n.tracker.streams = .empty

theorem Wf.conn_eq {n : Net} (hw : Wf n) {l l' : Live} (hl : l ∈ n.live) (hl' : l' ∈ n.live) {k : ObjId}
    (hk : k ∈ l.conn.ids) (hk' : k ∈ l'.conn.ids) : l.conn = l'.conn := by
  by_contra hne
  have hpair := (List.nodup_flatMap.mp hw.distinct).2
  have : Std.Symm (Function.onFun List.Disjoint fun l : Live => l.conn.ids) := ⟨fun _ _ h => h.symm⟩
  have hdisj := hpair.forall hl hl' fun h => hne (congrArg Live.conn h)
  exact hdisj hk hk'

variable {n v : Net} {c : Conn} {now : ℚ} {nowTs : String}

theorem connected_metas (t : Tracker) (c : Conn) (now : ℚ) (nowTs : String) :
    (t.connected now nowTs c.obj).1.metas = t.metas ++ [.new c.peer c.obj now nowTs] := by
  cases hm : c.muxed <;> simp [connected, Conn.obj, hm, Conn.peer, seen]

theorem connected_get? (t : Tracker) (c : Conn) (now : ℚ) (nowTs : String) (k : ObjId) :
    (t.connected now nowTs c.obj).1.connMeta.get? k =
      if k ∈ c.ids then some t.metas.length else t.connMeta.get? k := by
  cases hm : c.muxed with
  | none => simp [connected, Conn.obj, Conn.ids, hm, seen]
  | some m =>
    simp only [connected, Conn.obj, Conn.ids, hm, Dict.get?_set, Option.toList_some, List.mem_cons,
      List.not_mem_nil, or_false]
    by_cases hk : k = c.id <;> by_cases hkm : k = m <;> simp [hk, hkm, seen]

theorem connected_streams (t : Tracker) (c : Conn) (now : ℚ) (nowTs : String) :
    (t.connected now nowTs c.obj).1.streams = t.streams := by
  simp [connected, Conn.obj, seen]

theorem popMeta_connMeta {t : Tracker} {peerId : String} {k : ObjId} {m : ConnMeta}
    (hm : metaAt t k = some m) (hp : m.peerId = peerId) :
    t.popMeta peerId k = { t with connMeta := t.connMeta.erase k } := by
  have hm : (t.connMeta.get? k).bind (t.metas[·]?) = some m := hm
  simp [popMeta, hm, hp]

theorem metaAt_erase {t : Tracker} {j k : ObjId} (hne : k ≠ j) :
    metaAt { t with connMeta := t.connMeta.erase j } k = metaAt t k := by
  simp [metaAt, hne]

structure Dropped (t t' : Tracker) (c : Conn) : Prop where
  connMeta : t'.connMeta = t.connMeta.eraseAll c.ids
  metas : t'.metas = t.metas
  stats : t'.stats.entries.length = t.stats.entries.length
  streams : t'.streams = t.streams

variable (nowTs) in
theorem dropConnection_dropped {t : Tracker} {l : Live} (hids : l.conn.ids.Nodup)
    (hmeta : ∀ k ∈ l.conn.ids, metaAt t k = some l.recorded) (hpeer : l.recorded.peerId = l.conn.peer) :
    Dropped t (t.dropConnection nowTs l.conn.peer l.conn.id l.conn.muxed) l.conn := by
  have hid := popMeta_connMeta (hmeta l.conn.id List.mem_cons_self) hpeer
  cases hm : l.conn.muxed with
  | none =>
    constructor
    · simp only [dropConnection, hid, Conn.ids, hm]
      rfl
    · simp [dropConnection, hid]
    · simp only [dropConnection, hid]
      exact length_disconnectStats _ _ _
    · simp [dropConnection, hid]
  | some m =>
    have hne : m ≠ l.conn.id := by
      rintro rfl
      simp [Conn.ids, hm] at hids
    have hmuxed := popMeta_connMeta
      ((metaAt_erase hne).trans (hmeta m (by simp [Conn.ids, hm]))) hpeer
    constructor
    · simp only [dropConnection, hid, hmuxed, Conn.ids, hm]
      rfl
    · simp [dropConnection, hid, hmuxed]
    · simp only [dropConnection, hid, hmuxed]
      exact length_disconnectStats _ _ _
    · simp [dropConnection, hid, hmuxed]

def swept (t : Tracker) (c : Conn) (now : ℚ) : List ObjId :=
  if 2000 < t.stats.entries.length ∧ 500 < (others t c).length then
    (staleKeys (t.connMeta.eraseAll c.ids) t.metas now).take 300
  else []

theorem enforce_connMeta {t t' : Tracker} (h : Dropped t t' c) :
    (if t'.stats.entries.length > 2000 then t'.enforceStatsCapacity now else t').connMeta =
      (t.connMeta.eraseAll c.ids).eraseAll (swept t c now) := by
  by_cases hcap : 2000 < t.stats.entries.length
  · have hcap' : t'.stats.entries.length > 2000 := by
      rw [h.stats]
      exact hcap
    rw [if_pos hcap', enforceStatsCapacity, if_neg (by omega)]
    dsimp only
    by_cases hlen : 500 < (others t c).length
    · rw [if_pos (by rw [h.connMeta]; exact hlen), swept, if_pos ⟨hcap, hlen⟩, ← h.connMeta, h.metas]
    · rw [if_neg (by rw [h.connMeta]; exact hlen), swept, if_neg (fun hc => hlen hc.2), h.connMeta]
      rfl
  · rw [if_neg (by rw [h.stats]; exact hcap), swept, if_neg (fun hc => hcap hc.1), h.connMeta]
    rfl

theorem pruneStreams_of_noStreams {t : Tracker} (h : t.streams = .empty) (heap : Heap) (connId : ObjId)
    (muxedId : Option ObjId) : (t.pruneStreams now heap connId muxedId).1 =
      if t.stats.entries.length > 2000 then t.enforceStatsCapacity now else t := by
  rw [pruneStreams, h]
  rfl

variable (now nowTs) in
theorem disconnected_dropped {l : Live} (hw : Wf n) (hk : Kept n) (hl : l ∈ n.live) :
    ∃ t', Dropped n.tracker t' l.conn ∧
      (n.tracker.disconnected now nowTs (fun _ => none) l.conn.obj).1 =
        if t'.stats.entries.length > 2000 then t'.enforceStatsCapacity now else t' := by
  have hids : l.conn.ids.Nodup := (List.nodup_flatMap.mp hw.distinct).1 l hl
  have hdrop : Dropped n.tracker.seen
      (n.tracker.seen.dropConnection nowTs l.conn.peer l.conn.id l.conn.muxed) l.conn :=
    dropConnection_dropped nowTs hids (hk.live l hl) (hw.peers l hl)
  refine ⟨_, ⟨hdrop.connMeta, hdrop.metas, hdrop.stats, hdrop.streams⟩, ?_⟩
  exact pruneStreams_of_noStreams (hdrop.streams.trans hw.noStreams) _ _ _

theorem mem_swept {t : Tracker} {k : ObjId} (h : k ∈ swept t c now) :
    k ∈ t.connMeta.keys ∧ k ∉ c.ids := by
  unfold swept at h
  split_ifs at h
  · have hk : k ∈ staleKeys (t.connMeta.eraseAll c.ids) t.metas now := List.mem_of_mem_take h
    obtain ⟨e, he, rfl⟩ := List.mem_map.mp hk
    have hkey : e.1 ∈ (t.connMeta.eraseAll c.ids).keys := List.mem_map_of_mem (List.mem_of_mem_filter he)
    exact (Dict.mem_keys_eraseAll.mp hkey).symm
  · contradiction

theorem sweepsNothing_iff : SweepsNothing n (.disconnected c now nowTs) ↔ swept n.tracker c now = [] := by
  have hstale : (staleKeys (n.tracker.connMeta.eraseAll c.ids) n.tracker.metas now).take 300 = [] ↔
      ∀ e ∈ others n.tracker c, ∀ m, n.tracker.metas[e.2]? = some m → now - m.startMono ≤ 600 := by
    simp only [staleKeys, others, List.take_eq_nil_iff, List.map_eq_nil_iff, List.filter_eq_nil_iff,
      Option.any_eq_true, decide_eq_true_eq, not_exists, not_and, not_lt]
    simp
  unfold swept SweepsNothing
  by_cases hcap : 2000 < n.tracker.stats.entries.length ∧ 500 < (others n.tracker c).length
  · rw [if_pos hcap, hstale]
    constructor
    · rintro (h | h | h)
      · omega
      · omega
      · exact h
    · exact fun h => .inr (.inr h)
  · rw [if_neg hcap]
    simp only [iff_true]
    by_cases hlen : n.tracker.stats.entries.length ≤ 2000
    · exact .inl hlen
    · exact .inr (.inl (by omega))

variable (now nowTs) in
theorem connected_kept (hw : Wf n) (hk : Kept n) (hids : c.ids.Nodup) (hfresh : ∀ k ∈ c.ids, k ∉ n.ids) :
    let v : Net := ⟨(n.tracker.connected now nowTs c.obj).1, ⟨c, .new c.peer c.obj now nowTs⟩ :: n.live⟩
    Wf v ∧ Kept v := by
  intro v
  constructor
  · constructor
    · change (c.ids ++ n.ids).Nodup
      rw [List.nodup_append]
      refine ⟨hids, hw.distinct, ?_⟩
      rintro k hkc j hj rfl
      exact hfresh k hkc hj
    · intro l hl
      obtain rfl | hl := List.mem_cons.mp hl
      · rfl
      · exact hw.peers l hl
    · change (n.tracker.connected now nowTs c.obj).1.streams = _
      rw [connected_streams, hw.noStreams]
  · constructor
    · intro l hl k hkl
      change ((n.tracker.connected now nowTs c.obj).1.connMeta.get? k).bind _ = _
      rw [connected_get?, connected_metas]
      obtain rfl | hl := List.mem_cons.mp hl
      · rw [if_pos hkl]
        simp
      · have hnot : k ∉ c.ids := fun h => hfresh k h (List.mem_flatMap.mpr ⟨l, hl, hkl⟩)
        rw [if_neg hnot]
        obtain ⟨r, hr, hm⟩ := Option.bind_eq_some_iff.mp (hk.live l hl k hkl)
        rw [hr, Option.bind_some, List.getElem?_append_left (List.getElem?_eq_some_iff.mp hm).1]
        exact hm
    · intro k hkey
      change k ∈ c.ids ++ n.ids
      rw [Dict.mem_keys] at hkey
      obtain ⟨r, hr⟩ := hkey
      change (n.tracker.connected now nowTs c.obj).1.connMeta.get? k = _ at hr
      rw [connected_get?] at hr
      split_ifs at hr with hkc
      · exact List.mem_append_left _ hkc
      · exact List.mem_append_right _ (hk.only k (Dict.mem_keys.mpr ⟨r, hr⟩))

theorem disconnected_kept {l : Live} (hw : Wf n) (hk : Kept n) (hl : l ∈ n.live) :
    let v : Net := ⟨(n.tracker.disconnected now nowTs (fun _ => none) l.conn.obj).1,
      n.live.filter fun l' => l'.conn ≠ l.conn⟩
    Wf v ∧ (Kept v ↔ SweepsNothing n (.disconnected l.conn now nowTs)) := by
  intro v
  obtain ⟨t', hd, hv⟩ := disconnected_dropped now nowTs hw hk hl
  have htracker : v.tracker = if t'.stats.entries.length > 2000 then t'.enforceStatsCapacity now else t' := hv
  have hmeta : v.tracker.connMeta =
      (n.tracker.connMeta.eraseAll l.conn.ids).eraseAll (swept n.tracker l.conn now) := by
    rw [htracker]
    exact enforce_connMeta hd
  have hmetas : v.tracker.metas = n.tracker.metas := by
    rw [htracker, apply_ite Tracker.metas, enforce_metas, ite_self, hd.metas]
  have hlive : ∀ l' ∈ v.live, l' ∈ n.live ∧ ∀ k ∈ l'.conn.ids, k ∉ l.conn.ids := by
    intro l' hl'
    obtain ⟨hmem, hne⟩ := List.mem_filter.mp hl'
    simp only [decide_eq_true_eq] at hne
    refine ⟨hmem, fun k hk' hkl => ?_⟩
    exact hne (hw.conn_eq hmem hl hk' hkl)
  refine ⟨⟨?_, ?_, ?_⟩, ?_⟩
  · exact hw.distinct.sublist (List.filter_sublist.flatMap _)
  · exact fun l' hl' => hw.peers l' (hlive l' hl').1
  · rw [htracker, apply_ite Tracker.streams, enforce_streams, ite_self, hd.streams, hw.noStreams]
  · rw [sweepsNothing_iff]
    constructor
    · intro hkept
      rw [List.eq_nil_iff_forall_not_mem]
      intro k hk'
      obtain ⟨hkey, hnot⟩ := mem_swept hk'
      obtain ⟨l', hl', hkl⟩ := List.mem_flatMap.mp (hk.only k hkey)
      have hmem : l' ∈ v.live := by
        apply List.mem_filter.mpr
        refine ⟨hl', ?_⟩
        simp only [decide_eq_true_eq]
        rintro heq
        exact hnot (heq ▸ hkl)
      have hget := hkept.live l' hmem k hkl
      rw [metaAt, hmeta, Dict.get?_eraseAll, if_pos hk'] at hget
      contradiction
    · intro hswept
      rw [hswept, Dict.eraseAll_nil] at hmeta
      constructor
      · intro l' hl' k hkl
        obtain ⟨hmem, hdisj⟩ := hlive l' hl'
        rw [metaAt, hmeta, hmetas, Dict.get?_eraseAll, if_neg (hdisj k hkl)]
        exact hk.live l' hmem k hkl
      · intro k hkey
        rw [hmeta, Dict.mem_keys_eraseAll] at hkey
        obtain ⟨l', hl', hkl⟩ := List.mem_flatMap.mp (hk.only k hkey.2)
        refine List.mem_flatMap.mpr ⟨l', List.mem_filter.mpr ⟨hl', ?_⟩, hkl⟩
        simp only [decide_eq_true_eq]
        rintro heq
        exact hkey.1 (heq ▸ hkl)

theorem step_kept {e : Event} (hw : Wf n) (hk : Kept n) (hs : step n e = some v) :
    Wf v ∧ (Kept v ↔ SweepsNothing n e) := by
  cases e with
  | connected c now nowTs =>
    simp only [step] at hs
    split_ifs at hs with hfresh
    obtain rfl := Option.some.inj hs
    obtain ⟨hwf, hkept⟩ := connected_kept now nowTs hw hk hfresh.1 hfresh.2
    exact ⟨hwf, fun _ => trivial, fun _ => hkept⟩
  | disconnected c now nowTs =>
    simp only [step] at hs
    split_ifs at hs with hmem
    obtain rfl := Option.some.inj hs
    obtain ⟨l, hl, rfl⟩ := List.mem_map.mp hmem
    exact disconnected_kept hw hk hl

theorem wf_init : Wf .init := ⟨List.nodup_nil, fun _ hl => absurd hl List.not_mem_nil, rfl⟩

theorem kept_init : Kept .init := by
  constructor
  · intro l hl
    exact absurd hl List.not_mem_nil
  · intro k hk
    simp [Net.init, Tracker.init] at hk

theorem connMeta_live_iff (es : List Event) (s : Net) :
    Run (fun u e v => step u e = some v ∧ Kept v) .init es s ↔
      Run (fun u e v => step u e = some v ∧ SweepsNothing u e) .init es s := by
  apply Run.congr_of_invariant (P := fun n => Wf n ∧ Kept n)
  · rintro u e v ⟨hw, hk⟩ ⟨hs, hkept⟩
    exact ⟨(step_kept hw hk hs).1, hkept⟩
  · rintro u e v ⟨hw, hk⟩
    exact and_congr_right fun hs => (step_kept hw hk hs).2
  · exact ⟨wf_init, kept_init⟩

def crowdPeer (i : ℕ) : String := String.ofList ('Q' :: List.replicate i 'm')

theorem crowdPeer_inj {i j : ℕ} (h : crowdPeer i = crowdPeer j) : i = j := by
  have hlen := congrArg (fun s => s.toList.length) h
  simpa [crowdPeer] using hlen

def crowdConn (i : ℕ) : Conn :=
  ⟨2 * i + 1, some (2 * i + 2), some (crowdPeer i), ⟨"outbound", "tcp", "Noise", "yamux", none⟩⟩

theorem crowdConn_peer (i : ℕ) : (crowdConn i).peer = crowdPeer i := by
  have hne : crowdPeer i ≠ "" := by
    intro h
    have := congrArg String.toList h
    simp [crowdPeer] at this
  simp [Conn.peer, crowdConn, orUnknown, hne]

def crowd (n : ℕ) : List Event := (List.range n).map fun i => .connected (crowdConn i) 0 "t0"

structure IsCrowd (n : ℕ) (s : Net) : Prop where
  wf : Wf s
  kept : Kept s
  conns : ∀ i < n, crowdConn i ∈ s.live.map Live.conn
  ids : ∀ k : ℕ, k ∈ s.ids → k ≤ 2 * n
  peers : ∀ p ∈ s.tracker.stats.keys, ∃ i < n, p = crowdPeer i
  stats : s.tracker.stats.entries.length = n
  entries : s.tracker.connMeta.entries.length = 2 * n
  started : ∀ m ∈ s.tracker.metas, m.startMono = 0

theorem IsCrowd.next {i : ℕ} {s : Net} (h : IsCrowd i s) :
    ∃ s', step s (.connected (crowdConn i) 0 "t0") = some s' ∧ IsCrowd (i + 1) s' := by
  have hids : (crowdConn i).ids = [2 * i + 1, 2 * i + 2] := rfl
  have hfresh : ∀ k ∈ (crowdConn i).ids, k ∉ s.ids := by
    intro (k : ℕ) hk hks
    have := h.ids k hks
    simp only [hids, List.mem_cons, List.not_mem_nil, or_false] at hk
    rcases hk with rfl | rfl <;> omega
  have hnodup : (crowdConn i).ids.Nodup := by simp [hids]
  obtain ⟨hwf, hkept⟩ := connected_kept 0 "t0" h.wf h.kept hnodup hfresh
  have hnot : ∀ k : ℕ, 2 * i < k → k ∉ s.tracker.connMeta.keys := by
    intro k hk hkey
    have := h.ids k (h.kept.only k hkey)
    omega
  have hpeer : crowdPeer i ∉ s.tracker.stats.keys := by
    intro hp
    obtain ⟨j, hj, he⟩ := h.peers _ hp
    have := crowdPeer_inj he
    omega
  have hstats : (s.tracker.connected 0 "t0" (crowdConn i).obj).1.stats =
      s.tracker.stats.set (crowdPeer i) (((s.tracker.stats.get? (crowdPeer i)).getD
        { peerId := crowdPeer i }).connected (crowdConn i).details "t0") := by
    rw [← crowdConn_peer]
    rfl
  have hmeta : (s.tracker.connected 0 "t0" (crowdConn i).obj).1.connMeta =
      (s.tracker.connMeta.set (2 * i + 1) s.tracker.metas.length).set (2 * i + 2)
        s.tracker.metas.length := rfl
  have hsecond : 2 * i + 2 ∉ (s.tracker.connMeta.set (2 * i + 1) s.tracker.metas.length).keys := by
    rw [Dict.mem_keys_set]
    rintro (he | hk)
    · omega
    · exact hnot _ (by omega) hk
  refine ⟨_, if_pos ⟨hnodup, hfresh⟩, hwf, hkept, ?_, ?_, ?_, ?_, ?_, ?_⟩
  · intro j hj
    obtain hj | rfl := Nat.lt_succ_iff_lt_or_eq.mp hj
    · exact List.mem_cons_of_mem _ (h.conns j hj)
    · exact List.mem_cons_self
  · intro (k : ℕ) hk
    obtain hk | hk := List.mem_append.mp (show k ∈ (crowdConn i).ids ++ s.ids from hk)
    · simp only [hids, List.mem_cons, List.not_mem_nil, or_false] at hk
      omega
    · have := h.ids k hk
      omega
  · intro p hp
    rw [hstats, Dict.mem_keys_set] at hp
    obtain rfl | hp := hp
    · exact ⟨i, by omega, rfl⟩
    · obtain ⟨j, hj, he⟩ := h.peers p hp
      exact ⟨j, by omega, he⟩
  · rw [hstats, Dict.entries_set_of_notMem hpeer, List.length_append, h.stats]
    rfl
  · rw [hmeta, Dict.entries_set_of_notMem hsecond, List.length_append,
      Dict.entries_set_of_notMem (hnot _ (by omega)), List.length_append, h.entries]
    simp only [List.length_singleton]
    omega
  · intro m hm
    change m ∈ (s.tracker.connected 0 "t0" (crowdConn i).obj).1.metas at hm
    rw [connected_metas] at hm
    obtain hm | hm := List.mem_append.mp hm
    · exact h.started m hm
    · obtain rfl := List.mem_singleton.mp hm
      rfl

theorem run_crowd (n : ℕ) :
    ∃ s, Run (fun u e v => step u e = some v) .init (crowd n) s ∧ IsCrowd n s := by
  induction n with
  | zero =>
    refine ⟨.init, .refl, wf_init, kept_init, ?_, ?_, ?_, rfl, rfl, ?_⟩
    · intro i hi
      omega
    · intro k hk
      exact absurd hk List.not_mem_nil
    · intro p hp
      exact absurd hp List.not_mem_nil
    · intro m hm
      exact absurd hm List.not_mem_nil
  | succ n ih =>
    obtain ⟨s, hrun, hs⟩ := ih
    obtain ⟨s', hstep, hs'⟩ := hs.next
    refine ⟨s', ?_, hs'⟩
    rw [crowd, List.range_succ, List.map_append]
    exact hrun.tail hstep

def leaves : Event := .disconnected (crowdConn 0) 601 "t1"

theorem IsCrowd.sweeps {n : ℕ} {s : Net} (hn : 2000 < n) (h : IsCrowd n s) : ¬SweepsNothing s leaves := by
  rintro (hstats | hothers | hold)
  · rw [h.stats] at hstats
    omega
  · have hone : ∀ d : Dict ObjId ℕ, ∀ k, d.entries.length ≤ (d.erase k).entries.length + 1 := by
      intro d k
      have := Dict.countP_erase (fun _ => true) d k
      simp only [Dict.countP, Dict.countAt, List.countP_true] at this
      split_ifs at this <;> omega
    have hfirst := hone s.tracker.connMeta 1
    have hsecond := hone (s.tracker.connMeta.erase 1) 2
    have hlen : (others s.tracker (crowdConn 0)).length =
        ((s.tracker.connMeta.erase 1).erase 2).entries.length := rfl
    rw [h.entries] at hfirst
    omega
  · obtain ⟨l, hl, hc⟩ := List.mem_map.mp (h.conns 1 (by omega))
    have hmem : 3 ∈ l.conn.ids := by
      rw [hc]
      exact List.mem_cons_self
    obtain ⟨r, hr, hm⟩ := Option.bind_eq_some_iff.mp (h.kept.live l hl 3 hmem)
    have hentry : (3, r) ∈ others s.tracker (crowdConn 0) := by
      apply Dict.get?_eq_some.mp
      rw [Dict.get?_eraseAll, if_neg (by decide)]
      exact hr
    have hage := hold _ hentry _ hm
    rw [h.started _ (List.mem_of_getElem? hm)] at hage
    norm_num at hage

theorem connMeta_live_fails :
    ¬∀ (es : List Event) (s : Net), Run (fun u e v => step u e = some v) .init es s → Kept s := by
  intro hall
  obtain ⟨s, hrun, hs⟩ := run_crowd 2001
  have hstep : step s leaves = some _ := if_pos (hs.conns 0 (by omega))
  have hkept := hall _ _ (hrun.tail hstep)
  exact hs.sweeps (by omega) ((step_kept hs.wf hs.kept hstep).2.mp hkept)

end IpfsLite.Tracker.Conns
