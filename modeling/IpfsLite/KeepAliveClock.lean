import IpfsLite.KeepAlive
import IpfsLite.Lib.EveryOther

/-!
The keep-alive loop on time: a sweep every 15 s that finds fewer than 25 peers, and pings that start at
once and are answered within 3 s. The clock goes no further than the next of these is due.
-/

namespace IpfsLite.KeepAlive

open Runs EveryOther Trio

variable {P : Type} [DecidableEq P]

structure Clocked (P : Type) [DecidableEq P] where
  state : State P
  since : ℕ → ℚ
  sweeps : List ℚ
  nextSweep : ℚ
  started : List (P × ℚ)

def Phase.limit : Phase → Option ℚ
  | .spawned | .acquiring => some 0
  | .pinging => some 3
  | .resting => some (1 / 10)
  | .finished => none

def Task.admits (t : Task P) (since now : ℚ) : Prop := ∀ d ∈ t.phase.limit, now ≤ since + d

instance (t : Task P) (since now : ℚ) : Decidable (t.admits since now) :=
  inferInstanceAs (Decidable (∀ d ∈ t.phase.limit, now ≤ since + d))

namespace Clocked

def init (now : ℚ) : Clocked P := ⟨.init now, fun _ => now, [], now + 15, []⟩

def allows (c : Clocked P) : Event P → Bool
  | .wait seconds => c.state.now + seconds ≤ c.nextSweep ∧
    ∀ e ∈ c.state.tasks.zipIdx, e.1.admits (c.since e.2) (c.state.now + seconds)
  | .sweep table order => c.state.now = c.nextSweep ∧ (Event.sweep table order).seen.toFinset.card < 25
  | .task i .pingReturns => c.since i < c.state.now
  | .task i .rested => c.state.now = c.since i + 1 / 10
  | .task _ act => act = .start ∨ act = .resume

def after (c : Clocked P) (s : State P) : Event P → Clocked P
  | .wait _ => { c with state := s }
  | .sweep .. =>
    { c with
      state := s
      since := fun i => if i < c.state.tasks.length then c.since i else c.state.now
      sweeps := c.sweeps ++ [c.state.now]
      nextSweep := c.state.now + 15 }
  | .task i act =>
    { c with
      state := s
      since := Function.update c.since i c.state.now
      started := c.started ++
        (if act = .resume then (c.state.tasks[i]?).toList.map fun t => (t.peer, c.state.now) else []) }

def step (c : Clocked P) (e : Event P) : Option (Clocked P) :=
  if c.allows e then (KeepAlive.step c.state e).map fun s => c.after s e else none

def lastSweep (c : Clocked P) : ℚ := c.nextSweep - 15

/-- The sweeps that ping a peer that never was pinged: the time of its last ping reads as 0. -/
def dueSweeps (c : Clocked P) : List ℚ := c.sweeps.filter (15 ≤ ·)

variable {c d : Clocked P} {i : ℕ} {t : Task P} {act : Act} {p : P}

structure Moved (c d : Clocked P) (i : ℕ) (t : Task P) (phase : Phase) : Prop where
  task : c.state.tasks[i]? = some t
  tasks : d.state.tasks = c.state.tasks.set i { t with phase := phase }
  now : d.state.now = c.state.now
  since : d.since = Function.update c.since i c.state.now
  sweeps : d.sweeps = c.sweeps
  nextSweep : d.nextSweep = c.nextSweep

inductive TaskStep (c d : Clocked P) (i : ℕ) (t : Task P) : Prop
  | start (phase : t.phase = .spawned) (moved : Moved c d i t .acquiring)
      (marks : d.state.inflightPings = c.state.inflightPings) (times : d.state.lastPingTime = c.state.lastPingTime)
      (started : d.started = c.started) (permits : d.state.semaphore = c.state.semaphore.acquire i)
  | resume (phase : t.phase = .acquiring) (moved : Moved c d i t .pinging)
      (marks : d.state.inflightPings = c.state.inflightPings) (times : d.state.lastPingTime = c.state.lastPingTime)
      (started : d.started = c.started ++ [(t.peer, c.state.now)])
      (permits : d.state.semaphore = c.state.semaphore)
  | pingReturns (phase : t.phase = .pinging) (moved : Moved c d i t .resting) (delay : c.since i < c.state.now)
      (marks : d.state.inflightPings = c.state.inflightPings)
      (times : d.state.lastPingTime = c.state.lastPingTime.set t.peer c.state.now)
      (started : d.started = c.started) (permits : d.state.semaphore = c.state.semaphore.release)
  | rested (phase : t.phase = .resting) (moved : Moved c d i t .finished)
      (marks : d.state.inflightPings = c.state.inflightPings.erase t.peer)
      (times : d.state.lastPingTime = c.state.lastPingTime) (started : d.started = c.started)
      (permits : d.state.semaphore = c.state.semaphore)

theorem step_ok {e : Event P} (h : c.step e = some d) :
    c.allows e = true ∧ ∃ s, KeepAlive.step c.state e = some s ∧ d = c.after s e := by
  obtain ⟨hallows, h⟩ := Option.ite_none_right_eq_some.mp h
  obtain ⟨s, hs, rfl⟩ := Option.map_eq_some_iff.mp h
  exact ⟨hallows, s, hs, rfl⟩

theorem step_task (h : c.step (.task i act) = some d) : ∃ t, TaskStep c d i t := by
  obtain ⟨hallows, s, hs, rfl⟩ := step_ok h
  obtain ⟨t, ht, hs⟩ := Option.bind_eq_some_iff.mp hs
  refine ⟨t, ?_⟩
  cases act with
  | start =>
    obtain ⟨hp, hs⟩ := Option.ite_none_right_eq_some.mp hs
    obtain rfl := Option.some.inj hs
    exact .start hp ⟨ht, rfl, rfl, rfl, rfl, rfl⟩ rfl rfl (by simp [after]) rfl
  | resume =>
    obtain ⟨hp, hs⟩ := Option.ite_none_right_eq_some.mp hs
    obtain rfl := Option.some.inj hs
    exact .resume hp.1 ⟨ht, rfl, rfl, rfl, rfl, rfl⟩ rfl rfl (by simp [after, ht]) rfl
  | pingReturns =>
    obtain ⟨hp, hs⟩ := Option.ite_none_right_eq_some.mp hs
    obtain rfl := Option.some.inj hs
    exact .pingReturns hp ⟨ht, rfl, rfl, rfl, rfl, rfl⟩ (of_decide_eq_true hallows) rfl rfl (by simp [after])
      rfl
  | rested =>
    obtain ⟨hp, hs⟩ := Option.ite_none_right_eq_some.mp hs
    obtain rfl := Option.some.inj hs
    exact .rested hp ⟨ht, rfl, rfl, rfl, rfl, rfl⟩ rfl rfl (by simp [after]) rfl
  | pingRaises | cancel => exact absurd hallows (by simp [allows])

def InTime (c : Clocked P) (i : ℕ) (t : Task P) : Prop :=
  match t.phase with
  | .spawned | .acquiring => c.since i = c.state.now ∧ c.state.now = c.lastSweep
  | .pinging => c.since i = c.lastSweep ∧ c.state.now ≤ c.lastSweep + 3
  | .resting => (c.lastSweep < c.since i ∧ c.since i ≤ c.lastSweep + 3) ∧ c.state.now ≤ c.since i + 1 / 10 ∧
    c.state.lastPingTime.get? t.peer = some (c.since i)
  | .finished => True

structure OnTime (c : Clocked P) : Prop where
  past : c.lastSweep ≤ c.state.now
  next : c.state.now ≤ c.nextSweep
  steps : Steps 15 c.dueSweeps
  last : ∀ t ∈ c.dueSweeps.getLast?, t = c.lastSweep
  tasks : ∀ i t, c.state.tasks[i]? = some t → c.InTime i t

theorem init_onTime (now : ℚ) : OnTime (.init now : Clocked P) where
  past := by simp [lastSweep, init, State.init]
  next := by simp [init, State.init]
  steps := .nil
  last := by simp [dueSweeps, init]
  tasks := by simp [init, State.init]

theorem Moved.lastSweep {phase : Phase} (hm : Moved c d i t phase) : d.lastSweep = c.lastSweep := by
  rw [Clocked.lastSweep, Clocked.lastSweep, hm.nextSweep]

theorem Moved.dueSweeps {phase : Phase} (hm : Moved c d i t phase) : d.dueSweeps = c.dueSweeps := by
  rw [Clocked.dueSweeps, Clocked.dueSweeps, hm.sweeps]

theorem Moved.inTime {phase : Phase} (hm : Moved c d i t phase) {j : ℕ} {u : Task P} (hne : j ≠ i)
    (hu : c.InTime j u)
    (htimes : u.phase = .resting → d.state.lastPingTime.get? u.peer = c.state.lastPingTime.get? u.peer) :
    d.InTime j u := by
  have hlast := hm.lastSweep
  have hsince : d.since j = c.since j := by rw [hm.since, Function.update_of_ne hne]
  unfold InTime at hu ⊢
  rw [hlast, hsince, hm.now]
  cases hphase : u.phase with
  | resting =>
    rw [hphase] at hu
    dsimp only at hu ⊢
    rw [htimes hphase]
    exact hu
  | _ =>
    rw [hphase] at hu
    exact hu

theorem Moved.onTime {phase : Phase} (hc : OnTime c) (hm : Moved c d i t phase)
    (hself : d.InTime i { t with phase := phase })
    (htimes : ∀ j u, j ≠ i → c.state.tasks[j]? = some u → u.phase = .resting →
      d.state.lastPingTime.get? u.peer = c.state.lastPingTime.get? u.peer) : OnTime d := by
  have hlast := hm.lastSweep
  have hdue := hm.dueSweeps
  constructor
  · rw [hlast, hm.now]
    exact hc.past
  · rw [hm.now, hm.nextSweep]
    exact hc.next
  · rw [hdue]
    exact hc.steps
  · rw [hdue, hlast]
    exact hc.last
  · intro j u hu
    rw [hm.tasks] at hu
    by_cases hj : j = i
    · obtain ⟨hlt, -⟩ := List.getElem?_eq_some_iff.mp hm.task
      rw [hj, List.getElem?_set_self hlt] at hu
      obtain rfl := Option.some.inj hu
      rw [hj]
      exact hself
    · rw [List.getElem?_set_ne (Ne.symm hj)] at hu
      exact hm.inTime hj (hc.tasks j u hu) (htimes j u hj hu)

theorem TaskStep.onTime {events : List (Event P)} (hc : OnTime c) (hs : Marked events c.state)
    (h : TaskStep c d i t) : OnTime d := by
  cases h with
  | start hphase hm _ htimes =>
    have ht := hc.tasks i t hm.task
    simp only [InTime, hphase] at ht
    apply hm.onTime hc
    · simp [InTime, hm.since, hm.now, hm.lastSweep, ht.2]
    · intro j u _ _ _
      rw [htimes]
  | resume hphase hm _ htimes =>
    have ht := hc.tasks i t hm.task
    simp only [InTime, hphase] at ht
    apply hm.onTime hc
    · simp [InTime, hm.since, hm.now, hm.lastSweep, ht.2]
    · intro j u _ _ _
      rw [htimes]
  | pingReturns hphase hm hdelay _ htimes =>
    have ht := hc.tasks i t hm.task
    simp only [InTime, hphase] at ht
    rw [ht.1] at hdelay
    apply hm.onTime hc
    · simp [InTime, hm.since, hm.now, hm.lastSweep, htimes, hdelay, ht.2]
    · intro j u hj hu hrest
      -- another task of the same peer would be on its way too
      have hpeer : u.peer ≠ t.peer := by
        intro he
        exact hj (hs.unique hu hm.task (by simp [hrest]) (by simp [hphase]) he)
      rw [htimes, Dict.get?_set, if_neg hpeer]
  | rested hphase hm _ htimes =>
    apply hm.onTime hc
    · trivial
    · intro j u _ _ _
      rw [htimes]

theorem wait_onTime {seconds : ℚ} (hc : OnTime c) (h : c.step (.wait seconds) = some d) : OnTime d := by
  obtain ⟨hallows, s, hs, rfl⟩ := step_ok h
  obtain ⟨hpos, hs⟩ := Option.ite_none_right_eq_some.mp hs
  obtain rfl := Option.some.inj hs
  obtain ⟨hnext, hadmits⟩ := of_decide_eq_true hallows
  have hlast : (c.after { c.state with now := c.state.now + seconds } (.wait seconds)).lastSweep = c.lastSweep := rfl
  constructor
  · rw [hlast]
    exact hc.past.trans (le_add_of_nonneg_right hpos)
  · exact hnext
  · exact hc.steps
  · exact hc.last
  · intro i t ht
    have hold := hc.tasks i t ht
    have hd := hadmits (t, i) (List.mem_zipIdx_iff_getElem?.mpr ht)
    unfold Task.admits at hd
    unfold InTime at hold ⊢
    cases hphase : t.phase with
    | spawned | acquiring =>
      simp only [hphase, Phase.limit, Option.mem_some_iff, forall_eq'] at hold hd ⊢
      obtain ⟨hsince, hnow⟩ := hold
      obtain rfl : seconds = 0 := by linarith
      simp only [after, lastSweep, add_zero] at hsince hnow ⊢
      exact ⟨hsince, hnow⟩
    | pinging =>
      simp only [hphase, Phase.limit, Option.mem_some_iff, forall_eq'] at hold hd ⊢
      rw [hold.1] at hd
      exact ⟨hold.1, hd⟩
    | resting =>
      simp only [hphase, Phase.limit, Option.mem_some_iff, forall_eq'] at hold hd ⊢
      exact ⟨hold.1, hd, hold.2.2⟩
    | finished => trivial

theorem step_sweep {table : Except PyError (Table P)} {order : List P} (h : c.step (.sweep table order) = some d) :
    c.state.now = c.nextSweep ∧ ∃ peers, d = c.after (c.state.mark peers) (.sweep table order) ∧ peers.length < 25 ∧
      ∀ p ∈ (Event.sweep table order).seen, p ∈ peers ↔
        p ∉ c.state.inflightPings ∧ 15 ≤ c.state.now - (c.state.lastPingTime.get? p).getD 0 := by
  obtain ⟨hallows, s, hs, rfl⟩ := step_ok h
  obtain ⟨hnow, hfew⟩ := of_decide_eq_true hallows
  refine ⟨hnow, ?_⟩
  rw [KeepAlive.step] at hs
  split at hs
  · next e htable =>
    obtain rfl := Option.some.inj hs
    refine ⟨[], by simp [State.mark], by simp, fun p hp => ?_⟩
    rw [Event.seen, htable] at hp
    contradiction
  · next connected htable =>
    obtain ⟨⟨hnodup, horder⟩, hs⟩ := Option.ite_none_right_eq_some.mp hs
    obtain rfl := Option.some.inj hs
    have hlength : order.length < 25 := by
      rw [← List.toFinset_card_of_nodup hnodup, horder]
      rw [Event.seen, htable] at hfew
      exact hfew
    refine ⟨c.state.peersToPing order, rfl, (List.length_filter_le _ _).trans_lt hlength, fun p hp => ?_⟩
    rw [Event.seen, htable] at hp
    have hmem : p ∈ order := by
      rw [← List.mem_toFinset, horder, List.mem_toFinset]
      exact hp
    simp [State.peersToPing, hmem]

theorem OnTime.finished (hc : OnTime c) (hnow : c.state.now = c.nextSweep) (ht : c.state.tasks[i]? = some t) :
    t.phase = .finished := by
  have hin := hc.tasks i t ht
  unfold InTime lastSweep at hin
  cases hphase : t.phase with
  | spawned | acquiring =>
    simp only [hphase] at hin
    linarith [hin.2]
  | pinging =>
    simp only [hphase] at hin
    linarith [hin.2]
  | resting =>
    simp only [hphase] at hin
    linarith [hin.1.2, hin.2.1]
  | finished => rfl

theorem lastSweep_sweep (c : Clocked P) (s : State P) (table : Except PyError (Table P)) (order : List P) :
    (c.after s (.sweep table order)).lastSweep = c.state.now := add_sub_cancel_right _ _

theorem dueSweeps_sweep (c : Clocked P) (s : State P) (table : Except PyError (Table P)) (order : List P) :
    (c.after s (.sweep table order)).dueSweeps =
      if 15 ≤ c.state.now then c.dueSweeps ++ [c.state.now] else c.dueSweeps := by
  rw [dueSweeps, after, List.filter_append, List.filter_singleton]
  split_ifs with h
  · simp [dueSweeps, h]
  · simp [dueSweeps, h]

theorem OnTime.due (hc : OnTime c) (hnow : c.state.now = c.nextSweep) (hne : c.dueSweeps ≠ []) : 15 ≤ c.state.now := by
  obtain ⟨t, ht⟩ := Option.ne_none_iff_exists'.mp (mt List.getLast?_eq_none_iff.mp hne)
  have hlast := hc.last t ht
  have hdue : 15 ≤ t := of_decide_eq_true (List.mem_filter.mp (List.mem_of_getLast? ht)).2
  rw [hlast, lastSweep] at hdue
  linarith

theorem sweep_onTime {table : Except PyError (Table P)} {order : List P} (hc : OnTime c)
    (h : c.step (.sweep table order) = some d) : OnTime d := by
  obtain ⟨hnow, peers, rfl, -, -⟩ := step_sweep h
  have hlast := lastSweep_sweep c (c.state.mark peers) table order
  constructor
  · rw [hlast]
    exact le_rfl
  · exact le_add_of_nonneg_right (by norm_num)
  · rw [dueSweeps_sweep]
    split_ifs
    · apply hc.steps.append_singleton
      intro t ht
      rw [hc.last t ht, lastSweep, hnow]
      ring
    · exact hc.steps
  · rw [dueSweeps_sweep, hlast]
    split_ifs with hdue
    · simp
    · have hnil : c.dueSweeps = [] := by
        by_contra hne
        exact hdue (hc.due hnow hne)
      simp [hnil]
  · intro i t ht
    change (c.state.tasks ++ peers.map (⟨·, .spawned⟩))[i]? = some t at ht
    by_cases hi : i < c.state.tasks.length
    · rw [List.getElem?_append_left hi] at ht
      unfold InTime
      rw [hc.finished hnow ht]
      trivial
    · rw [List.getElem?_append_right (Nat.le_of_not_lt hi)] at ht
      obtain ⟨q, -, rfl⟩ := List.mem_map.mp (List.mem_of_getElem? ht)
      refine ⟨?_, hlast.symm⟩
      exact if_neg hi

theorem TaskStep.moved (h : TaskStep c d i t) : ∃ phase, Moved c d i t phase := by
  cases h with
  | start _ hm | resume _ hm | pingReturns _ hm | rested _ hm => exact ⟨_, hm⟩

theorem TaskStep.phase_ne (h : TaskStep c d i t) : t.phase ≠ .finished := by
  cases h with
  | start hphase | resume hphase | pingReturns hphase | rested hphase => simp [hphase]

theorem step_state {e : Event P} (h : c.step e = some d) : KeepAlive.step c.state e = some d.state := by
  obtain ⟨-, s, hs, rfl⟩ := step_ok h
  cases e <;> exact hs

theorem run_state {events : List (Event P)} (h : Run (fun c e d => c.step e = some d) c events d) :
    Run (fun s e u => KeepAlive.step s e = some u) c.state events d.state := by
  induction h with
  | refl => exact .refl
  | tail _ he ih => exact ih.tail (step_state he)

theorem OnTime.unmarked {events : List (Event P)} (hc : OnTime c) (hs : Marked events c.state)
    (hnow : c.state.now = c.nextSweep) (p : P) : p ∉ c.state.inflightPings := by
  intro hp
  have hone := hs.tasks p
  rw [if_pos hp] at hone
  obtain ⟨t, ht, hlive⟩ := List.countP_pos_iff.mp (Nat.lt_of_lt_of_eq Nat.one_pos hone.symm)
  obtain ⟨i, hi⟩ := List.mem_iff_getElem?.mp ht
  exact (of_decide_eq_true hlive).2 (hc.finished hnow hi)

section Permits

def isHolder (t : Task P) : Bool := t.phase = .acquiring ∨ t.phase = .pinging

def isLive (t : Task P) : Bool := t.phase ≠ .finished

structure Permits (s : State P) : Prop where
  waiters : s.semaphore.waiters = []
  value : s.semaphore.value + s.tasks.countP isHolder = 25
  few : s.tasks.countP isLive < 25

omit [DecidableEq P] in
theorem countP_isHolder_le (tasks : List (Task P)) : tasks.countP isHolder ≤ tasks.countP isLive := by
  refine List.countP_mono_left fun t _ ht => ?_
  rcases of_decide_eq_true ht with h | h <;> simp [isLive, h]

theorem Moved.permits {phase : Phase} (hm : Moved c d i t phase) (hc : Permits c.state) (ht : isLive t = true)
    (hwaiters : d.state.semaphore.waiters = [])
    (hvalue : d.state.semaphore.value + (if isHolder { t with phase := phase } then 1 else 0) =
      c.state.semaphore.value + if isHolder t then 1 else 0) : Permits d.state := by
  have hholders := countP_set isHolder hm.task { t with phase := phase }
  have hlive := countP_set isLive hm.task { t with phase := phase }
  rw [← hm.tasks] at hholders hlive
  rw [if_pos ht] at hlive
  refine ⟨hwaiters, ?_, ?_⟩
  · have := hc.value
    omega
  · have := hc.few
    split_ifs at hlive <;> omega

theorem TaskStep.permits (hc : Permits c.state) (h : TaskStep c d i t) : Permits d.state := by
  have hlive : isLive t = true := decide_eq_true h.phase_ne
  cases h with
  | start hphase hm _ _ _ hsem =>
    have hpos : 0 < c.state.semaphore.value := by
      -- the task is on its way and has no permit
      have hholders := countP_set isHolder hm.task { t with phase := .acquiring }
      have hsame := countP_set isLive hm.task { t with phase := .acquiring }
      have hle := countP_isHolder_le (c.state.tasks.set i { t with phase := .acquiring })
      have hvalue := hc.value
      have hfew := hc.few
      simp [isHolder, isLive, hphase] at hholders hsame hle
      omega
    apply hm.permits hc hlive
    · rw [hsem, Semaphore.acquire, if_pos hpos]
      exact hc.waiters
    · rw [hsem, Semaphore.acquire, if_pos hpos]
      simp [isHolder, hphase]
      omega
  | resume hphase hm _ _ _ hsem =>
    apply hm.permits hc hlive
    · rw [hsem]
      exact hc.waiters
    · rw [hsem]
      simp [isHolder, hphase]
  | pingReturns hphase hm _ _ _ _ hsem =>
    have hrelease : c.state.semaphore.release = { c.state.semaphore with value := c.state.semaphore.value + 1 } := by
      simp [Semaphore.release, hc.waiters]
    apply hm.permits hc hlive
    · rw [hsem, hrelease]
      exact hc.waiters
    · rw [hsem, hrelease]
      simp [isHolder, hphase]
  | rested hphase hm _ _ _ hsem =>
    apply hm.permits hc hlive
    · rw [hsem]
      exact hc.waiters
    · rw [hsem]
      simp [isHolder, hphase]

theorem sweep_permits {table : Except PyError (Table P)} {order : List P} (ht : OnTime c) (hc : Permits c.state)
    (h : c.step (.sweep table order) = some d) : Permits d.state := by
  obtain ⟨hnow, peers, rfl, hfew, -⟩ := step_sweep h
  have hover : c.state.tasks.countP isLive = 0 := by
    refine List.countP_eq_zero.mpr fun t hmem => ?_
    obtain ⟨i, hi⟩ := List.mem_iff_getElem?.mp hmem
    simp [isLive, ht.finished hnow hi]
  have hspawned : (peers.map fun q => (⟨q, .spawned⟩ : Task P)).countP isHolder = 0 := by
    refine List.countP_eq_zero.mpr fun t hmem => ?_
    obtain ⟨q, -, rfl⟩ := List.mem_map.mp hmem
    simp [isHolder]
  have hnew : (peers.map fun q => (⟨q, .spawned⟩ : Task P)).countP isLive ≤ _ := List.countP_le_length
  have htasks : (c.after (c.state.mark peers) (.sweep table order)).state.tasks =
    c.state.tasks ++ peers.map fun q => ⟨q, .spawned⟩ := rfl
  refine ⟨hc.waiters, ?_, ?_⟩
  · rw [htasks, List.countP_append, hspawned]
    exact hc.value
  · rw [htasks, List.countP_append, hover]
    rw [List.length_map] at hnew
    omega

end Permits

structure Timely (events : List (Event P)) (c : Clocked P) : Prop where
  marked : Marked events c.state
  onTime : OnTime c
  permits : Permits c.state

theorem init_timely (now : ℚ) : Timely [] (.init now : Clocked P) :=
  ⟨init_marked now, init_onTime now, ⟨rfl, rfl, Nat.zero_lt_succ _⟩⟩

theorem step_timely {events : List (Event P)} {e : Event P} (hc : Timely events c) (h : c.step e = some d) :
    Timely (events ++ [e]) d := by
  have hmarked := step_marked hc.marked (step_state h)
  cases e with
  | wait seconds =>
    obtain ⟨-, hs⟩ := Option.ite_none_right_eq_some.mp (step_state h)
    refine ⟨hmarked, wait_onTime hc.onTime h, ?_⟩
    rw [← Option.some.inj hs]
    exact ⟨hc.permits.waiters, hc.permits.value, hc.permits.few⟩
  | sweep table order => exact ⟨hmarked, sweep_onTime hc.onTime h, sweep_permits hc.onTime hc.permits h⟩
  | task i act =>
    obtain ⟨t, ht⟩ := step_task h
    exact ⟨hmarked, ht.onTime hc.onTime hc.marked, ht.permits hc.permits⟩

theorem acquiring_resumes (now : ℚ) (events : List (Event P)) (c : Clocked P)
    (h : Run (fun c e d => c.step e = some d) (.init now) events c) (ht : c.state.tasks[i]? = some t)
    (hphase : t.phase = .acquiring) : ∃ d, c.step (.task i .resume) = some d := by
  have hc : Timely events c := h.history (fun _ _ _ _ hc he => step_timely hc he) (init_timely now)
  have hresume : KeepAlive.step c.state (.task i .resume) = some (c.state.goto i t .pinging) := by
    simp [KeepAlive.step, State.stepTask, ht, hphase, hc.permits.waiters]
  exact ⟨c.after (c.state.goto i t .pinging) (.task i .resume), by simp [step, allows, hresume]⟩

end Clocked

end IpfsLite.KeepAlive
