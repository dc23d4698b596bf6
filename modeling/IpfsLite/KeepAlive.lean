import IpfsLite.Exceptions
import IpfsLite.Lib.Dict
import IpfsLite.Lib.Runs
import IpfsLite.Lib.Trio

/-!
The keep-alive pings of `peer/_maintenance.py`: the sweeps of the loop and the tasks that they spawn,
one atomic segment between two awaits at a time. A task is known by its place in the order of
spawning. `_ping_peer` swallows what the ping raises, a timeout included, so a ping that fails
returns like one that succeeds.
-/

namespace IpfsLite.KeepAlive

open Runs Trio

/-- Where a task is suspended: not yet started, in `acquire`, in `_ping_peer`, in the sleep behind it. -/
inductive Phase
  | spawned
  | acquiring
  | pinging
  | resting
  | finished
deriving DecidableEq

structure Task (P : Type) where
  peer : P
  phase : Phase
deriving DecidableEq

variable {P : Type} [DecidableEq P]

/-- `network.connections`: for each connection the truth of its `is_closed`, or what reading it raises. -/
abbrev Table (P : Type) := List (P × List (Except PyError Bool))

def anyOpen : List (Except PyError Bool) → Except PyError Bool
  | [] => .ok false
  | c :: rest => do
    let isClosed ← c
    if isClosed then anyOpen rest else .ok true

def connectedPeers : Table P → Except PyError (List P)
  | [] => .ok []
  | (p, conns) :: rest => do
    let isConnected ← anyOpen conns
    let peers ← connectedPeers rest
    .ok (if isConnected then p :: peers else peers)

structure State (P : Type) [DecidableEq P] where
  now : ℚ
  inflightPings : Finset P
  lastPingTime : Dict P ℚ
  semaphore : Semaphore ℕ
  tasks : List (Task P)

def State.init (now : ℚ) : State P := ⟨now, ∅, .empty, .initial 25, []⟩

inductive Act
  | start
  | resume
  | pingReturns
  | pingRaises
  | rested
  | cancel
deriving DecidableEq

inductive Event (P : Type)
  | wait (seconds : ℚ)
  -- the table may raise, and `order` is the order of the set of connected peers
  | sweep (table : Except PyError (Table P)) (order : List P)
  | task (i : ℕ) (act : Act)

namespace State

def peersToPing (s : State P) (order : List P) : List P :=
  order.filter fun p => p ∉ s.inflightPings ∧ 15 ≤ s.now - (s.lastPingTime.get? p).getD 0

def mark (s : State P) (peers : List P) : State P :=
  { s with
    inflightPings := s.inflightPings ∪ peers.toFinset
    tasks := s.tasks ++ peers.map (⟨·, .spawned⟩) }

def goto (s : State P) (i : ℕ) (t : Task P) (phase : Phase) : State P :=
  { s with tasks := s.tasks.set i { t with phase := phase } }

def finish (s : State P) (i : ℕ) (t : Task P) : State P :=
  { s.goto i t .finished with inflightPings := s.inflightPings.erase t.peer }

def release (s : State P) : State P := { s with semaphore := s.semaphore.release }

def stepTask (s : State P) (i : ℕ) (t : Task P) : Act → Option (State P)
  | .start =>
    if t.phase = .spawned then some { s.goto i t .acquiring with semaphore := s.semaphore.acquire i } else none
  | .resume => if t.phase = .acquiring ∧ i ∉ s.semaphore.waiters then some (s.goto i t .pinging) else none
  | .pingReturns =>
    if t.phase = .pinging then
      some { s.release.goto i t .resting with lastPingTime := s.lastPingTime.set t.peer s.now }
    else none
  | .pingRaises => if t.phase = .pinging then some (s.release.finish i t) else none
  | .rested => if t.phase = .resting then some (s.finish i t) else none
  | .cancel =>
    match t.phase with
    | .spawned | .resting => some (s.finish i t)
    | .acquiring =>
      -- a task that has the permit is shielded until it resumes
      if i ∈ s.semaphore.waiters then some ({ s with semaphore := s.semaphore.abandon i }.finish i t) else none
    | .pinging => some (s.release.finish i t)
    | .finished => none

end State

def step (s : State P) : Event P → Option (State P)
  | .wait seconds => if 0 ≤ seconds then some { s with now := s.now + seconds } else none
  | .sweep table order =>
    match table.bind connectedPeers with
    | .error _ => some s
    | .ok connected =>
      if order.Nodup ∧ order.toFinset = connected.toFinset then some (s.mark (s.peersToPing order)) else none
  | .task i act => (s.tasks[i]?).bind fun t => s.stepTask i t act

def outstanding (s : State P) (p : P) : ℕ := s.tasks.countP fun t => t.peer = p ∧ t.phase ≠ .finished

def Event.seen : Event P → List P
  | .sweep table _ => (table.bind connectedPeers).toOption.getD []
  | .wait _ | .task .. => []

def seenPeers (events : List (Event P)) : Finset P := (events.flatMap Event.seen).toFinset

structure Marked (events : List (Event P)) (s : State P) : Prop where
  tasks : ∀ p, outstanding s p = if p ∈ s.inflightPings then 1 else 0
  seen : s.inflightPings ⊆ seenPeers events

variable {s u : State P} {events : List (Event P)} {e : Event P} {i : ℕ} {t : Task P} {p : P}

theorem stepTask_cases {act : Act} (h : s.stepTask i t act = some u) : t.phase ≠ .finished ∧
    ((∃ phase ≠ .finished, u.tasks = s.tasks.set i { t with phase := phase } ∧ u.inflightPings = s.inflightPings) ∨
      (u.tasks = s.tasks.set i { t with phase := .finished } ∧ u.inflightPings = s.inflightPings.erase t.peer)) := by
  cases act with
  | start =>
    obtain ⟨hp, hu⟩ := Option.ite_none_right_eq_some.mp h
    obtain rfl := Option.some.inj hu
    exact ⟨by simp [hp], .inl ⟨.acquiring, by decide, rfl, rfl⟩⟩
  | resume =>
    obtain ⟨hp, hu⟩ := Option.ite_none_right_eq_some.mp h
    obtain rfl := Option.some.inj hu
    exact ⟨by simp [hp.1], .inl ⟨.pinging, by decide, rfl, rfl⟩⟩
  | pingReturns =>
    obtain ⟨hp, hu⟩ := Option.ite_none_right_eq_some.mp h
    obtain rfl := Option.some.inj hu
    exact ⟨by simp [hp], .inl ⟨.resting, by decide, rfl, rfl⟩⟩
  | pingRaises =>
    obtain ⟨hp, hu⟩ := Option.ite_none_right_eq_some.mp h
    obtain rfl := Option.some.inj hu
    exact ⟨by simp [hp], .inr ⟨rfl, rfl⟩⟩
  | rested =>
    obtain ⟨hp, hu⟩ := Option.ite_none_right_eq_some.mp h
    obtain rfl := Option.some.inj hu
    exact ⟨by simp [hp], .inr ⟨rfl, rfl⟩⟩
  | cancel =>
    simp only [State.stepTask] at h
    split at h
    · next hp =>
      obtain rfl := Option.some.inj h
      exact ⟨by simp [hp], .inr ⟨rfl, rfl⟩⟩
    · next hp =>
      obtain rfl := Option.some.inj h
      exact ⟨by simp [hp], .inr ⟨rfl, rfl⟩⟩
    · next hp =>
      split_ifs at h
      obtain rfl := Option.some.inj h
      exact ⟨by simp [hp], .inr ⟨rfl, rfl⟩⟩
    · next hp =>
      obtain rfl := Option.some.inj h
      exact ⟨by simp [hp], .inr ⟨rfl, rfl⟩⟩
    · contradiction

theorem countP_set {α : Type} (q : α → Bool) {l : List α} {a : α} (ha : l[i]? = some a) (b : α) :
    (l.set i b).countP q + (if q a then 1 else 0) = l.countP q + if q b then 1 else 0 := by
  obtain ⟨hi, hget⟩ := List.getElem?_eq_some_iff.mp ha
  have hset := List.countP_set (p := q) (a := b) hi
  rw [hget] at hset
  by_cases hold : q a = true
  · have hpos := List.countP_pos_iff.mpr ⟨a, List.mem_of_getElem? ha, hold⟩
    rw [if_pos hold] at hset ⊢
    omega
  · rw [if_neg hold] at hset ⊢
    omega

theorem outstanding_set {phase : Phase} (ht : s.tasks[i]? = some t)
    (hu : u.tasks = s.tasks.set i { t with phase := phase }) (p : P) :
    outstanding u p + (if t.peer = p ∧ t.phase ≠ .finished then 1 else 0) =
      outstanding s p + if t.peer = p ∧ phase ≠ .finished then 1 else 0 := by
  have hset := countP_set (fun t : Task P => t.peer = p ∧ t.phase ≠ .finished) ht { t with phase := phase }
  simp only [decide_eq_true_eq] at hset
  rw [outstanding, hu]
  exact hset

theorem outstanding_mark (s : State P) {peers : List P} (hn : peers.Nodup) (p : P) :
    outstanding (s.mark peers) p = outstanding s p + if p ∈ peers then 1 else 0 := by
  have hspawned : (peers.map fun q => (⟨q, .spawned⟩ : Task P)).countP
      (fun t => t.peer = p ∧ t.phase ≠ .finished) = peers.count p := by
    rw [List.countP_map, List.count_eq_countP]
    refine List.countP_congr fun q _ => ?_
    simp
  rw [outstanding, State.mark, List.countP_append, hspawned, hn.count]
  rfl

theorem init_marked (now : ℚ) : Marked [] (.init now : State P) := ⟨fun _ => rfl, Finset.empty_subset _⟩

theorem seenPeers_subset (events : List (Event P)) (e : Event P) : seenPeers events ⊆ seenPeers (events ++ [e]) := by
  unfold seenPeers
  rw [List.flatMap_append, List.toFinset_append]
  exact Finset.subset_union_left

theorem Marked.later (hs : Marked events s) (hu : ∀ p, outstanding u p = outstanding s p)
    (hin : u.inflightPings = s.inflightPings) (e : Event P) : Marked (events ++ [e]) u := by
  constructor
  · intro p
    rw [hu, hin]
    exact hs.tasks p
  · rw [hin]
    exact hs.seen.trans (seenPeers_subset events e)

theorem task_marked {act : Act} (hs : Marked events s) (ht : s.tasks[i]? = some t)
    (h : s.stepTask i t act = some u) : Marked (events ++ [.task i act]) u := by
  obtain ⟨hlive, ⟨phase, hphase, htasks, hin⟩ | ⟨htasks, hin⟩⟩ := stepTask_cases h
  · have hset := outstanding_set ht htasks
    refine hs.later (fun p => ?_) hin _
    have hp := hset p
    simp only [hlive, hphase, ne_eq, not_false_eq_true, and_true] at hp
    omega
  · have hset := outstanding_set ht htasks
    constructor
    · intro p
      have hp := hset p
      rw [hs.tasks p] at hp
      simp only [hin, Finset.mem_erase]
      by_cases hpeer : t.peer = p
      · -- the peer had this task on its way, so it is marked
        simp only [hpeer, hlive, ne_eq, not_false_eq_true, and_true, not_true_eq_false, and_false, false_and,
          if_true, if_false, Nat.add_zero] at hp ⊢
        split_ifs at hp
        · omega
      · simp only [hpeer, false_and, if_false, Nat.add_zero] at hp
        rw [hp]
        simp [Ne.symm hpeer]
    · rw [hin]
      exact ((Finset.erase_subset _ _).trans hs.seen).trans (seenPeers_subset events _)

theorem sweep_marked {table : Except PyError (Table P)} {order connected : List P} (hs : Marked events s)
    (htable : table.bind connectedPeers = .ok connected) (hn : order.Nodup)
    (horder : order.toFinset = connected.toFinset) :
    Marked (events ++ [.sweep table order]) (s.mark (s.peersToPing order)) := by
  have hping : (s.peersToPing order).Nodup := hn.filter _
  have hfree : ∀ p ∈ s.peersToPing order, p ∉ s.inflightPings := by
    intro p hp
    exact (of_decide_eq_true (List.mem_filter.mp hp).2).1
  have hmarked (p : P) : p ∈ (s.mark (s.peersToPing order)).inflightPings ↔
      p ∈ s.inflightPings ∨ p ∈ s.peersToPing order := by
    rw [State.mark, Finset.mem_union, List.mem_toFinset]
  constructor
  · intro p
    rw [outstanding_mark s hping, hs.tasks p]
    simp only [hmarked]
    by_cases hp : p ∈ s.peersToPing order
    · simp [hp, hfree p hp]
    · simp [hp]
  · intro p hp
    rcases (hmarked p).mp hp with hp | hp
    · exact seenPeers_subset events _ (hs.seen hp)
    · have hconn : p ∈ connected := by
        rw [← List.mem_toFinset, ← horder, List.mem_toFinset]
        exact (List.mem_filter.mp hp).1
      unfold seenPeers
      rw [List.flatMap_append, List.toFinset_append, Finset.mem_union]
      apply Or.inr
      rw [List.mem_toFinset, List.flatMap_singleton, Event.seen, htable]
      exact hconn

theorem step_marked (hs : Marked events s) (h : step s e = some u) : Marked (events ++ [e]) u := by
  cases e with
  | wait seconds =>
    rw [step] at h
    split_ifs at h
    obtain rfl := Option.some.inj h
    refine hs.later (fun _ => ?_) ?_ _
    · rfl
    · rfl
  | sweep table order =>
    rw [step] at h
    split at h
    · obtain rfl := Option.some.inj h
      exact hs.later (fun _ => rfl) rfl _
    · next connected htable =>
      split_ifs at h with hok
      obtain rfl := Option.some.inj h
      exact sweep_marked hs htable hok.1 hok.2
  | task i act =>
    obtain ⟨t, ht, hstep⟩ := Option.bind_eq_some_iff.mp h
    exact task_marked hs ht hstep

theorem Marked.unique (hs : Marked events s) {j : ℕ} {v : Task P} (hi : s.tasks[i]? = some t) (hj : s.tasks[j]? = some v)
    (ht : t.phase ≠ .finished) (hv : v.phase ≠ .finished) (h : t.peer = v.peer) : i = j := by
  by_contra hne
  have hset := outstanding_set (u := s.goto i t .finished) hi rfl t.peer
  have hone : outstanding s t.peer ≤ 1 := by
    rw [hs.tasks]
    split_ifs <;> omega
  have hkept : (s.goto i t .finished).tasks[j]? = some v := by
    rw [State.goto, List.getElem?_set_ne hne]
    exact hj
  have hpos : 0 < outstanding (s.goto i t .finished) t.peer :=
    List.countP_pos_iff.mpr ⟨v, List.mem_of_getElem? hkept, by simp [h, hv]⟩
  simp only [ht, ne_eq, not_false_eq_true, and_true, if_true, not_true_eq_false, and_false, if_false] at hset
  omega

theorem Marked.mem (hs : Marked events s) (hi : s.tasks[i]? = some t) (ht : t.phase ≠ .finished) :
    t.peer ∈ s.inflightPings := by
  by_contra hnot
  have hpos : 0 < outstanding s t.peer :=
    List.countP_pos_iff.mpr ⟨t, List.mem_of_getElem? hi, by simp [ht]⟩
  rw [hs.tasks, if_neg hnot] at hpos
  omega

theorem Marked.total (hs : Marked events s) :
    (s.tasks.countP fun t => t.phase ≠ .finished) ≤ (seenPeers events).card := by
  let live := s.tasks.filter fun t => t.phase ≠ .finished
  have hcount (p : P) : (live.map Task.peer).count p = outstanding s p := by
    rw [List.count_eq_countP, List.countP_map, List.countP_filter, outstanding]
    refine List.countP_congr fun t _ => ?_
    simp
  have hn : (live.map Task.peer).Nodup := by
    refine List.nodup_iff_count_le_one.mpr fun p => ?_
    rw [hcount, hs.tasks]
    split_ifs <;> omega
  have hsub : (live.map Task.peer).toFinset ⊆ seenPeers events := by
    intro p hp
    apply hs.seen
    by_contra hnot
    have hpos := List.count_pos_iff.mpr (List.mem_toFinset.mp hp)
    rw [hcount, hs.tasks, if_neg hnot] at hpos
    omega
  calc (s.tasks.countP fun t => t.phase ≠ .finished)
      = (live.map Task.peer).length := by rw [List.length_map, List.countP_eq_length_filter]
    _ = (live.map Task.peer).toFinset.card := (List.toFinset_card_of_nodup hn).symm
    _ ≤ (seenPeers events).card := Finset.card_le_card hsub

theorem one_ping_each (now : ℚ) (events : List (Event P)) (s : State P)
    (h : Run (fun s e u => step s e = some u) (.init now) events s) :
    (∀ p, p ∈ s.inflightPings ↔ outstanding s p = 1) ∧ (∀ p, outstanding s p ≤ 1) ∧
      (s.tasks.countP fun t => t.phase ≠ .finished) ≤ (seenPeers events).card := by
  have hs : Marked events s := h.history (fun _ _ _ _ hs hstep => step_marked hs hstep) (init_marked now)
  refine ⟨fun p => ?_, fun p => ?_, hs.total⟩
  · rw [hs.tasks p]
    split_ifs with hp
    · simp [hp]
    · simp [hp]
  · rw [hs.tasks p]
    split_ifs <;> omega

/-- The second sweep finds one ping still waiting for its answer and one not yet started. -/
def overlappingSweeps : List (Event String) :=
  let table : Except PyError (Table String) := .ok [("QmA", [.ok false]), ("QmB", [.ok true, .ok false])]
  [.sweep table ["QmA", "QmB"], .task 0 .start, .task 0 .resume, .wait 15, .sweep table ["QmB", "QmA"],
    .task 0 .pingReturns, .task 0 .rested]

theorem one_ping_each_overlapping :
    let s := stateAfter step (.init 20) overlappingSweeps (by decide +kernel)
    s.inflightPings = {"QmB"} ∧ (∀ p, p ∈ s.inflightPings ↔ outstanding s p = 1) ∧ (∀ p, outstanding s p ≤ 1) ∧
      (s.tasks.countP fun t => t.phase ≠ .finished) ≤ (seenPeers overlappingSweeps).card :=
  ⟨by decide +kernel, one_ping_each 20 overlappingSweeps _ (run_stateAfter step (.init 20) overlappingSweeps _)⟩

end IpfsLite.KeepAlive
