import IpfsLite.Lib.Recent
import IpfsLite.PubsubAutoJoin

/-!
The discovery passes against their history: the scans so far, and how each subscription came about.
-/

namespace IpfsLite.PubsubAutoJoin

open Runs

structure Scan where
  peerTopics : Dict String ℕ
  stats : Dict String TopicStat

def announced (peerTopics : Dict String ℕ) (topic : String) : ℕ := (peerTopics.get? topic).getD 0

def statOf (stats : Dict String TopicStat) (topic : String) : TopicStat := (stats.get? topic).getD {}

/-- The latest scan comes first. A topic's origin is the work that subscribed it, `none` for a call. -/
structure Watched where
  sys : Sys
  scans : List Scan
  origin : String → Option Todo

def Watched.init : Watched := ⟨Sys.init, [], fun _ => none⟩

def source (s : Sys) : Event → Option Todo
  | .next _ => s.queue.head?
  | .initPubsub .. | .discoveryPass .. | .subscribe .. | .unsubscribe _ => none

def scan (w : Watched) : Event → List Scan
  | .discoveryPass true peerTopics _ => ⟨peerTopics, w.sys.topicStats⟩ :: w.scans
  | .discoveryPass false .. | .initPubsub .. | .next _ | .subscribe .. | .unsubscribe _ => w.scans

def Watched.next (w : Watched) (e : Event) (s : Sys) : Watched where
  sys := s
  scans := scan w e
  origin := fun topic =>
    if topic ∈ s.subscriptions.keys ∧ topic ∉ w.sys.subscriptions.keys then source w.sys e
    else w.origin topic

def watch (cfg : Config) (w : Watched) (e : Event) : Option Watched := (step cfg w.sys e).map (w.next e)

variable {cfg : Config} {w w' : Watched} {e : Event} {topic : String}

theorem watch_step (h : watch cfg w e = some w') :
    step cfg w.sys e = some w'.sys ∧ w' = w.next e w'.sys := by
  obtain ⟨s, hs, rfl⟩ := Option.map_eq_some_iff.mp h
  exact ⟨hs, rfl⟩

/-! The counters of a topic -/

theorem statOf_eraseAll (stats : Dict String TopicStat) (gone : List String) (topic : String) :
    statOf (stats.eraseAll gone) topic = if topic ∈ gone then {} else statOf stats topic := by
  rw [statOf, Dict.get?_eraseAll]
  split_ifs <;> rfl

theorem score_get? (cfg : Config) (peerTopics : Dict String ℕ) {order : List String} (hn : order.Nodup)
    (stats : Dict String TopicStat) (topic : String) :
    (Sys.score cfg peerTopics order stats).get? topic =
      if topic ∈ order then some (Sys.scoreTopic cfg (announced peerTopics topic) (statOf stats topic))
      else stats.get? topic := by
  induction order generalizing stats with
  | nil => rfl
  | cons t order ih =>
    obtain ⟨hfresh, hn⟩ := List.nodup_cons.mp hn
    rw [Sys.score, List.foldl_cons]
    change (Sys.score cfg peerTopics order _).get? topic = _
    rw [ih hn]
    by_cases ht : topic = t
    · subst ht
      simp [hfresh, announced, statOf]
    · simp [statOf, ht]

def Scan.forgives (cfg : Config) (sc : Scan) (topic : String) : Prop :=
  announced sc.peerTopics topic < cfg.minPeers ∧ 0 < (statOf sc.stats topic).hits ∧
    (statOf sc.stats topic).misses + 1 < cfg.leaveAfter

def Scan.hit (cfg : Config) (sc : Scan) (topic : String) : Prop :=
  cfg.minPeers ≤ announced sc.peerTopics topic

structure Backed (cfg : Config) (scans : List Scan) (topic : String) (st : TopicStat) : Prop where
  hits : Recent (fun sc => sc.hit cfg topic ∨ sc.forgives cfg topic) st.hits scans
  misses : Recent (fun sc => ¬sc.hit cfg topic) st.misses scans

theorem Backed.zero (cfg : Config) (scans : List Scan) (topic : String) : Backed cfg scans topic {} :=
  ⟨.zero _ _, .zero _ _⟩

theorem Backed.scoreTopic {sc : Scan} {scans : List Scan}
    (h : Backed cfg scans topic (statOf sc.stats topic)) :
    Backed cfg (sc :: scans) topic
      (Sys.scoreTopic cfg (announced sc.peerTopics topic) (statOf sc.stats topic)) := by
  unfold Sys.scoreTopic
  split_ifs with hhit hdead
  · exact ⟨h.hits.succ (.inl hhit), .zero _ _⟩
  · exact ⟨.zero _ _, h.misses.succ hhit⟩
  · refine ⟨?_, h.misses.succ hhit⟩
    rcases Nat.eq_zero_or_pos (statOf sc.stats topic).hits with hzero | hpos
    · dsimp only
      rw [hzero]
      exact .zero _ _
    · exact h.hits.cons (.inr ⟨Nat.lt_of_not_le hhit, hpos, Nat.lt_of_not_le hdead⟩)

structure Counted (cfg : Config) (w : Watched) : Prop where
  backed : ∀ topic, Backed cfg w.scans topic (statOf w.sys.topicStats topic)
  queued : ∀ topic, .join topic ∈ w.sys.queue → cfg.joinConf ≤ (statOf w.sys.topicStats topic).hits

theorem Counted.congr {v : Watched} (h : Counted cfg w) (hscans : v.scans = w.scans)
    (hstats : v.sys.topicStats = w.sys.topicStats)
    (hqueue : ∀ topic, .join topic ∈ v.sys.queue → .join topic ∈ w.sys.queue) : Counted cfg v := by
  constructor
  · rw [hscans, hstats]
    exact h.backed
  · rw [hstats]
    exact fun topic ht => h.queued topic (hqueue topic ht)

theorem mem_candidates {subscriptions : Dict String ℕ} {stats : Dict String TopicStat}
    (h : topic ∈ Sys.candidates cfg subscriptions stats) : cfg.joinConf ≤ (statOf stats topic).hits := by
  obtain ⟨e, he, rfl⟩ := List.mem_map.mp h
  rw [List.mem_insertionSort, List.mem_filter, decide_eq_true_eq] at he
  rw [statOf, Dict.get?_eq_some.mpr he.1]
  exact he.2.1

variable {peerTopics : Dict String ℕ} {order : List String}

theorem score_backed (cfg : Config) (peerTopics : Dict String ℕ) (hn : order.Nodup)
    {stats : Dict String TopicStat} {scans : List Scan}
    (hknown : ∀ t ∈ stats.keys, t ∈ order) (h : Backed cfg scans topic (statOf stats topic)) :
    Backed cfg (⟨peerTopics, stats⟩ :: scans) topic
      (statOf (Sys.score cfg peerTopics order stats) topic) := by
  rw [statOf, score_get? cfg peerTopics hn]
  split_ifs with ht
  · exact h.scoreTopic
  · rw [Dict.get?_eq_none.mpr fun hmem => ht (hknown topic hmem)]
    exact .zero _ _ _

theorem leavePass_counted (hn : order.Nodup) (hknown : ∀ t ∈ w.sys.topicStats.keys, t ∈ order)
    (h : Counted cfg w) : Counted cfg
      (w.next (.discoveryPass true peerTopics order) (w.sys.leavePass cfg peerTopics order)) := by
  constructor
  · intro topic
    change Backed cfg (⟨peerTopics, w.sys.topicStats⟩ :: w.scans) topic (statOf (Dict.eraseAll _ _) topic)
    rw [statOf_eraseAll]
    split_ifs
    · exact .zero _ _ _
    · exact score_backed cfg _ hn hknown (h.backed topic)
  · intro topic ht
    obtain ⟨t, hmem, heq⟩ := List.mem_map.mp ht
    rw [← Todo.join.inj heq]
    exact mem_candidates hmem

theorem subscribe_topicStats (s : Sys) (topic : String) (result : Option ℕ) :
    (s.subscribePubsubTopic topic result).topicStats = s.topicStats ∧
      (s.subscribePubsubTopic topic result).queue = s.queue := by
  unfold Sys.subscribePubsubTopic
  split_ifs
  · exact ⟨rfl, rfl⟩
  · cases result <;> exact ⟨rfl, rfl⟩

structure Quiet (s s' : Sys) : Prop where
  stats : s'.topicStats = s.topicStats
  joins : ∀ topic, .join topic ∈ s'.queue → .join topic ∈ s.queue

theorem Quiet.subscribe {s s' : Sys} (h : Quiet s s') (topic : String) (result : Option ℕ) :
    Quiet s (s'.subscribePubsubTopic topic result) := by
  obtain ⟨hstats, hqueue⟩ := subscribe_topicStats s' topic result
  constructor
  · rw [hstats, h.stats]
  · rw [hqueue]
    exact h.joins

theorem startUp_joins (cfg : Config) (peerId : Option String) (persisted : List String) (topic : String) :
    .join topic ∉ Sys.startUp cfg peerId persisted := by
  unfold Sys.startUp
  split_ifs <;> simp

theorem next_quiet {s s' : Sys} {result : Option ℕ} (h : step cfg s (.next result) = some s') : Quiet s s' := by
  cases hq : s.queue with
  | nil => simp [step, hq] at h
  | cons todo rest =>
    have hrest : Quiet s { s with queue := rest } := by
      constructor
      · rfl
      · intro topic ht
        rw [hq]
        exact List.mem_cons_of_mem _ ht
    simp only [step, hq] at h
    cases todo with
    | configured topic =>
      obtain rfl := Option.some.inj h
      exact hrest.subscribe topic result
    | ownIpns topic =>
      obtain rfl := Option.some.inj h
      have hown : Quiet s { s with queue := rest, ownIpnsTopic := topic } := ⟨rfl, hrest.joins⟩
      exact hown.subscribe topic result
    | rejoin topic =>
      dsimp only at h
      split_ifs at h
      · obtain rfl := Option.some.inj h
        exact hrest
      · obtain rfl := Option.some.inj h
        have hsub := hrest.subscribe topic result
        exact ⟨hsub.stats, hsub.joins⟩
    | join topic =>
      dsimp only at h
      split_ifs at h
      · obtain rfl := Option.some.inj h
        exact ⟨rfl, fun t ht => absurd ht List.not_mem_nil⟩
      · obtain rfl := Option.some.inj h
        have hsub := hrest.subscribe topic result
        exact ⟨hsub.stats, hsub.joins⟩

theorem watch_counted (h : Counted cfg w) (hw : watch cfg w e = some w') : Counted cfg w' := by
  obtain ⟨hs, hnext⟩ := watch_step hw
  rw [hnext]
  cases e with
  | initPubsub peerId persisted =>
    rw [step] at hs
    split_ifs at hs
    rw [← Option.some.inj hs]
    exact h.congr rfl rfl fun topic ht => absurd ht (startUp_joins cfg peerId persisted topic)
  | discoveryPass running peerTopics order =>
    cases running with
    | false =>
      have hsame : some w.sys = some w'.sys := hs
      rw [← Option.some.inj hsame]
      exact h.congr rfl rfl fun _ ht => ht
    | true =>
      rw [step, if_neg (by simp)] at hs
      split_ifs at hs with hok
      rw [← Option.some.inj hs]
      exact leavePass_counted hok.2.1 hok.2.2.2.1 h
  | next result =>
    have hq := next_quiet hs
    exact h.congr rfl hq.stats hq.joins
  | subscribe topic result =>
    have hq : Quiet w.sys (w.sys.subscribePubsubTopic topic result) :=
      Quiet.subscribe ⟨rfl, fun _ ht => ht⟩ topic result
    rw [← Option.some.inj hs]
    exact h.congr rfl hq.stats hq.joins
  | unsubscribe topic =>
    rw [← Option.some.inj hs]
    exact h.congr rfl rfl fun _ ht => ht

theorem init_counted : Counted cfg .init := by
  constructor
  · exact fun topic => .zero _ _ _
  · exact fun topic ht => absurd ht List.not_mem_nil

end IpfsLite.PubsubAutoJoin
