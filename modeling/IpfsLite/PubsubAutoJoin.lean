import IpfsLite.Lib.Dict
import IpfsLite.Lib.Runs

/-!
The topics that a peer joins by itself: the rejoin at start-up, the discovery passes, and calls that
subscribe and unsubscribe, also between two topics of a start-up or a pass. `pubsub.subscribe` gives
a subscription or raises.
-/

namespace IpfsLite.PubsubAutoJoin

open Runs

structure Config where
  pubsubTopics : List String := []
  autoJoinMinPeers : ℤ := 2
  autoJoinMaxTopics : ℤ := 25
  joinConfirmations : ℤ := 2
  leaveMisses : ℤ := 4
  persistTopics : Bool := true

structure TopicStat where
  hits : ℕ := 0
  misses : ℕ := 0
  maxPeers : ℕ := 0

/-- A topic that a start-up or a pass still has to look at. -/
inductive Todo
  | configured (topic : String)
  | ownIpns (topic : String)
  | rejoin (topic : String)
  | join (topic : String)
deriving DecidableEq

structure Sys where
  subscriptions : Dict String ℕ
  autoJoined : Finset String
  topicStats : Dict String TopicStat
  ownIpnsTopic : String
  queue : List Todo

def Sys.init : Sys := ⟨.empty, ∅, .empty, "", []⟩

inductive Event
  | initPubsub (peerId : Option String) (persisted : List String)
  | discoveryPass (running : Bool) (peerTopics : Dict String ℕ) (order : List String)
  | next (result : Option ℕ)
  | subscribe (topic : String) (result : Option ℕ)
  | unsubscribe (topic : String)

namespace Config

def minPeers (cfg : Config) : ℕ := (max 1 cfg.autoJoinMinPeers).toNat

def joinConf (cfg : Config) : ℕ := (max 1 cfg.joinConfirmations).toNat

def leaveAfter (cfg : Config) : ℕ := (max 1 cfg.leaveMisses).toNat

def maxExtra (cfg : Config) : ℕ := (max 0 cfg.autoJoinMaxTopics).toNat

end Config

namespace Sys

def subscribePubsubTopic (s : Sys) (topic : String) (result : Option ℕ) : Sys :=
  if topic ∈ s.subscriptions.keys then s
  else
    match result with
    | some subscription => { s with subscriptions := s.subscriptions.set topic subscription }
    | none => s

def autoJoin (s : Sys) (topic : String) : Sys := { s with autoJoined := insert topic s.autoJoined }

def protectedTopics (cfg : Config) (s : Sys) : List String :=
  cfg.pubsubTopics ++ [s.ownIpnsTopic].filter (· ≠ "")

def baseCount (cfg : Config) (s : Sys) : ℕ :=
  cfg.pubsubTopics.length + if s.ownIpnsTopic = "" then 0 else 1

def startUp (cfg : Config) (peerId : Option String) (persisted : List String) : List Todo :=
  cfg.pubsubTopics.map .configured ++ (peerId.map fun id => .ownIpns ("/ipns/" ++ id)).toList ++
    if cfg.persistTopics ∧ 0 < cfg.autoJoinMinPeers then persisted.map .rejoin else []

def scoreTopic (cfg : Config) (peers : ℕ) (st : TopicStat) : TopicStat :=
  if cfg.minPeers ≤ peers then ⟨st.hits + 1, 0, max st.maxPeers peers⟩
  else if cfg.leaveAfter ≤ st.misses + 1 then ⟨0, st.misses + 1, 0⟩
  else { st with misses := st.misses + 1 }

def score (cfg : Config) (peerTopics : Dict String ℕ) (order : List String) (stats : Dict String TopicStat) :
    Dict String TopicStat :=
  order.foldl (fun d topic => d.set topic
    (scoreTopic cfg ((peerTopics.get? topic).getD 0) ((d.get? topic).getD {}))) stats

def stale (cfg : Config) (s : Sys) (stats : Dict String TopicStat) : List String :=
  s.subscriptions.keys.filter fun topic =>
    topic ∉ s.protectedTopics cfg ∧ (stats.get? topic).any (cfg.leaveAfter ≤ ·.misses)

def candidates (cfg : Config) (subscriptions : Dict String ℕ) (stats : Dict String TopicStat) : List String :=
  ((stats.entries.filter fun e => cfg.joinConf ≤ e.2.hits ∧ e.1 ∉ subscriptions.keys).insertionSort
    fun a b => b.2.maxPeers ≤ a.2.maxPeers).map Prod.fst

/-- A discovery pass up to its candidates: the streaks, then the leave rule. -/
def leavePass (cfg : Config) (s : Sys) (peerTopics : Dict String ℕ) (order : List String) : Sys :=
  let stats := score cfg peerTopics order s.topicStats
  let left := stale cfg s stats
  let subscriptions := s.subscriptions.eraseAll left
  let stats := stats.eraseAll left
  { s with
    subscriptions := subscriptions
    autoJoined := s.autoJoined \ left.toFinset
    topicStats := stats
    queue := (candidates cfg subscriptions stats).map .join }

end Sys

/-- `order` is the order in which a pass goes through the set of known and announced topics. -/
def step (cfg : Config) (s : Sys) : Event → Option Sys
  | .initPubsub peerId persisted =>
    if s.queue = [] then some { s with queue := Sys.startUp cfg peerId persisted } else none
  | .discoveryPass running peerTopics order =>
    if ¬running then some s
    else if s.queue = [] ∧ order.Nodup ∧ (∀ t ∈ order, t ∈ s.topicStats.keys ∨ 1 ≤ (peerTopics.get? t).getD 0) ∧
        (∀ t ∈ s.topicStats.keys, t ∈ order) ∧ ∀ e ∈ peerTopics.entries, 1 ≤ e.2 → e.1 ∈ order then
      some (s.leavePass cfg peerTopics order)
    else none
  | .next result =>
    match s.queue with
    | [] => none
    | .configured topic :: rest => some ({ s with queue := rest }.subscribePubsubTopic topic result)
    | .ownIpns topic :: rest =>
      some ({ s with queue := rest, ownIpnsTopic := topic }.subscribePubsubTopic topic result)
    | .rejoin topic :: rest =>
      if topic ∈ s.subscriptions.keys then some { s with queue := rest }
      else some (({ s with queue := rest }.subscribePubsubTopic topic result).autoJoin topic)
    | .join topic :: rest =>
      if s.baseCount cfg + cfg.maxExtra ≤ s.subscriptions.entries.length then some { s with queue := [] }
      else some (({ s with queue := rest }.subscribePubsubTopic topic result).autoJoin topic)
  | .subscribe topic result => some (s.subscribePubsubTopic topic result)
  | .unsubscribe topic => some { s with subscriptions := s.subscriptions.erase topic }

structure Bounded (cfg : Config) (s : Sys) : Prop where
  subscribed : ∀ topic ∈ s.autoJoined, topic ∈ s.subscriptions.keys
  capped : (s.autoJoined.card : ℤ) ≤ cfg.autoJoinMaxTopics

def KeepsBound (cfg : Config) (s : Sys) : Event → Prop
  | .next result =>
    match s.queue with
    | .rejoin topic :: _ => topic ∈ s.subscriptions.keys ∨
        result.isSome ∧ (s.autoJoined.card : ℤ) < cfg.autoJoinMaxTopics
    | .join topic :: _ => s.baseCount cfg + cfg.maxExtra ≤ s.subscriptions.entries.length ∨
        (topic ∈ s.subscriptions.keys ∨ result.isSome) ∧
          (topic ∈ s.autoJoined ∨ (s.autoJoined.card : ℤ) < cfg.autoJoinMaxTopics)
    | _ => True
  | .unsubscribe topic => topic ∉ s.autoJoined
  | .initPubsub .. | .discoveryPass .. | .subscribe .. => True

variable {cfg : Config} {s s' : Sys} {topic : String}

theorem Bounded.mono (h : Bounded cfg s) (hauto : s'.autoJoined ⊆ s.autoJoined)
    (hsub : ∀ topic ∈ s'.autoJoined, topic ∈ s.subscriptions.keys → topic ∈ s'.subscriptions.keys) :
    Bounded cfg s' := by
  constructor
  · intro topic ht
    exact hsub topic ht (h.subscribed topic (hauto ht))
  · have hcard := Finset.card_le_card hauto
    have hcap := h.capped
    omega

theorem subscribe_keys (s : Sys) (topic : String) (result : Option ℕ) (t : String) :
    t ∈ (s.subscribePubsubTopic topic result).subscriptions.keys ↔
      t ∈ s.subscriptions.keys ∨ (t = topic ∧ result.isSome) := by
  unfold Sys.subscribePubsubTopic
  split_ifs with hmem
  · exact ⟨.inl, fun h => h.elim id fun h => h.1 ▸ hmem⟩
  · cases result with
    | none => simp
    | some subscription => simp [Dict.mem_keys_set, or_comm]

theorem subscribe_autoJoined (s : Sys) (topic : String) (result : Option ℕ) :
    (s.subscribePubsubTopic topic result).autoJoined = s.autoJoined := by
  unfold Sys.subscribePubsubTopic
  split_ifs
  · rfl
  · cases result <;> rfl

theorem Bounded.subscribe (h : Bounded cfg s) (topic : String) (result : Option ℕ) :
    Bounded cfg (s.subscribePubsubTopic topic result) := by
  apply h.mono (subscribe_autoJoined ..).subset
  intro t _ ht
  exact (subscribe_keys ..).mpr (.inl ht)

theorem autoJoin_bounded_iff (h : Bounded cfg s) (topic : String) (result : Option ℕ) :
    Bounded cfg ((s.subscribePubsubTopic topic result).autoJoin topic) ↔
      (topic ∈ s.subscriptions.keys ∨ result.isSome) ∧
        (topic ∈ s.autoJoined ∨ (s.autoJoined.card : ℤ) < cfg.autoJoinMaxTopics) := by
  have hauto := subscribe_autoJoined s topic result
  have hcap := h.capped
  constructor
  · intro hj
    have htopic := hj.subscribed topic (Finset.mem_insert_self ..)
    have hcard := hj.capped
    simp only [Sys.autoJoin, hauto] at hcard htopic
    refine ⟨?_, ?_⟩
    · rcases (subscribe_keys ..).mp htopic with hmem | ⟨-, hsome⟩
      · exact .inl hmem
      · exact .inr hsome
    · by_cases hmem : topic ∈ s.autoJoined
      · exact .inl hmem
      · rw [Finset.card_insert_of_notMem hmem] at hcard
        push_cast at hcard
        exact .inr (by omega)
  · rintro ⟨hsub, hroom⟩
    constructor
    · intro t ht
      simp only [Sys.autoJoin, hauto, Finset.mem_insert] at ht
      apply (subscribe_keys ..).mpr
      rcases ht with rfl | ht
      · exact hsub.imp_right fun hsome => ⟨rfl, hsome⟩
      · exact .inl (h.subscribed t ht)
    · simp only [Sys.autoJoin, hauto]
      by_cases hmem : topic ∈ s.autoJoined
      · rw [Finset.insert_eq_of_mem hmem]
        exact hcap
      · have hlt := hroom.resolve_left hmem
        rw [Finset.card_insert_of_notMem hmem]
        push_cast
        omega

theorem Bounded.leavePass (h : Bounded cfg s) (peerTopics : Dict String ℕ) (order : List String) :
    Bounded cfg (s.leavePass cfg peerTopics order) := by
  apply h.mono Finset.sdiff_subset
  intro topic ht hmem
  have hstays := (Finset.mem_sdiff.mp ht).2
  exact Dict.mem_keys_eraseAll.mpr ⟨fun hleft => hstays (List.mem_toFinset.mpr hleft), hmem⟩

theorem step_bounded_iff {e : Event} (h : Bounded cfg s) (hs : step cfg s e = some s') :
    Bounded cfg s' ↔ KeepsBound cfg s e := by
  have hqueue (q : List Todo) : Bounded cfg { s with queue := q } := ⟨h.subscribed, h.capped⟩
  cases e with
  | initPubsub peerId persisted =>
    rw [step] at hs
    split_ifs at hs
    obtain rfl := Option.some.inj hs
    exact iff_of_true (hqueue _) trivial
  | discoveryPass running peerTopics order =>
    rw [step] at hs
    split_ifs at hs
    · obtain rfl := Option.some.inj hs
      exact iff_of_true (h.leavePass peerTopics order) trivial
    · obtain rfl := Option.some.inj hs
      exact iff_of_true h trivial
  | next result =>
    cases hq : s.queue with
    | nil => simp [step, hq] at hs
    | cons todo rest =>
      simp only [step, KeepsBound, hq] at hs ⊢
      cases todo with
      | configured topic =>
        obtain rfl := Option.some.inj hs
        exact iff_of_true ((hqueue rest).subscribe topic result) trivial
      | ownIpns topic =>
        obtain rfl := Option.some.inj hs
        have hown : Bounded cfg { s with queue := rest, ownIpnsTopic := topic } := ⟨h.subscribed, h.capped⟩
        exact iff_of_true (hown.subscribe topic result) trivial
      | rejoin topic =>
        dsimp only at hs ⊢
        split_ifs at hs with hmem
        · obtain rfl := Option.some.inj hs
          exact iff_of_true (hqueue rest) (.inl hmem)
        · obtain rfl := Option.some.inj hs
          have hnot : topic ∉ s.autoJoined := fun ht => hmem (h.subscribed topic ht)
          rw [autoJoin_bounded_iff (hqueue rest)]
          simp [hmem, hnot]
      | join topic =>
        dsimp only at hs ⊢
        split_ifs at hs with hcap
        · obtain rfl := Option.some.inj hs
          exact iff_of_true (hqueue []) (.inl hcap)
        · obtain rfl := Option.some.inj hs
          rw [autoJoin_bounded_iff (hqueue rest), or_iff_right hcap]
  | subscribe topic result =>
    obtain rfl := Option.some.inj hs
    exact iff_of_true (h.subscribe topic result) trivial
  | unsubscribe topic =>
    obtain rfl := Option.some.inj hs
    constructor
    · intro hu ht
      exact ((Dict.mem_keys_erase ..).mp (hu.subscribed topic ht)).1 rfl
    · intro hnot
      apply h.mono
      · exact Finset.Subset.refl _
      · intro t ht hmem
        exact (Dict.mem_keys_erase ..).mpr ⟨fun heq => hnot (heq ▸ ht), hmem⟩

theorem init_bounded_iff : Bounded cfg .init ↔ 0 ≤ cfg.autoJoinMaxTopics := by
  constructor
  · intro h
    exact h.capped
  · intro h
    exact ⟨fun topic ht => absurd ht (Finset.notMem_empty topic), h⟩

theorem autoJoined_iff (cfg : Config) (events : List Event) (s : Sys) :
    Bounded cfg .init ∧ Run (fun s e s' => step cfg s e = some s' ∧ Bounded cfg s') .init events s ↔
      0 ≤ cfg.autoJoinMaxTopics ∧
        Run (fun s e s' => step cfg s e = some s' ∧ KeepsBound cfg s e) .init events s := by
  rw [← init_bounded_iff]
  apply and_congr_right
  intro hinit
  apply Run.congr_of_invariant (P := Bounded cfg)
  · exact fun _ _ _ _ h => h.2
  · intro s e s' h
    exact and_congr_right fun hs => step_bounded_iff h hs
  · exact hinit

theorem autoJoined_fails :
    ¬∀ (cfg : Config) (events : List Event) (s : Sys), 0 ≤ cfg.autoJoinMaxTopics →
      Run (fun s e s' => step cfg s e = some s') .init events s → Bounded cfg s := by
  intro h
  let cfg : Config := { autoJoinMaxTopics := 1 }
  let events : List Event := [.initPubsub none ["a", "b"], .next (some 0), .next (some 1)]
  obtain ⟨s, hrun, htwo⟩ := exists_run (step cfg) .init events (fun s => s.autoJoined.card = 2)
    (by decide +kernel)
  have hcap := (h cfg events s (by decide) hrun).capped
  rw [of_decide_eq_true htwo] at hcap
  contradiction

end IpfsLite.PubsubAutoJoin
