import IpfsLite.KeepAliveClock

/-!
How far apart the pings of a peer are. A sweep passes over a peer whose ping was answered less than 15 s
ago, which is so for each peer that the sweep before it took.
-/

namespace IpfsLite.KeepAlive

open Runs EveryOther

variable {P : Type} [DecidableEq P]

def ConnectedThroughout (events : List (Event P)) (p : P) : Prop :=
  ∀ table order, .sweep table order ∈ events → p ∈ (Event.sweep table order).seen

namespace Clocked

def starts (c : Clocked P) (p : P) : List ℚ := (c.started.filter (·.1 = p)).map Prod.snd

structure Spaced (c : Clocked P) (p : P) : Prop where
  window : ∀ first ∈ (c.starts p).head?, ∀ t, first ≤ t → t + 30 ≤ c.state.now →
    ∃ a ∈ c.starts p, t ≤ a ∧ a ≤ t + 30
  gap : (c.starts p).IsChain fun a b => b - a < 30

variable {c d : Clocked P} {i : ℕ} {t : Task P} {p : P}

inductive Follows (c : Clocked P) (p : P) : Prop
  | early (sweeps : c.dueSweeps = []) (unmarked : p ∉ c.state.inflightPings)
      (times : c.state.lastPingTime.get? p = none) (starts : c.starts p = [])
  | waiting (odd : c.dueSweeps.length % 2 = 1) (i : ℕ) (t : Task P) (task : c.state.tasks[i]? = some t)
      (peer : t.peer = p) (phase : t.phase = .spawned ∨ t.phase = .acquiring)
      (starts : c.starts p ++ [c.lastSweep] = everyOther c.dueSweeps)
  | started (odd : c.dueSweeps.length % 2 = 1) (i : ℕ) (t : Task P) (task : c.state.tasks[i]? = some t)
      (peer : t.peer = p) (phase : t.phase = .pinging ∨ t.phase = .resting)
      (starts : c.starts p = everyOther c.dueSweeps)
  | answered (odd : c.dueSweeps.length % 2 = 1) (unmarked : p ∉ c.state.inflightPings) (r : ℚ)
      (times : c.state.lastPingTime.get? p = some r) (answer : c.lastSweep < r ∧ r ≤ c.lastSweep + 3)
      (starts : c.starts p = everyOther c.dueSweeps)
  | passedOver (even : c.dueSweeps.length % 2 = 0) (sweeps : c.dueSweeps ≠ []) (unmarked : p ∉ c.state.inflightPings)
      (r : ℚ) (times : c.state.lastPingTime.get? p = some r) (answer : r ≤ c.lastSweep - 12)
      (starts : c.starts p = everyOther c.dueSweeps)

theorem Follows.frame (h : Follows c p) (hdue : d.dueSweeps = c.dueSweeps) (hlast : d.lastSweep = c.lastSweep)
    (htasks : ∀ (i : ℕ) (t : Task P), c.state.tasks[i]? = some t → t.peer = p → d.state.tasks[i]? = some t)
    (hmarks : p ∈ d.state.inflightPings → p ∈ c.state.inflightPings)
    (htimes : d.state.lastPingTime.get? p = c.state.lastPingTime.get? p) (hstarts : d.starts p = c.starts p) :
    Follows d p := by
  cases h with
  | early hsweeps hun ht hs =>
    rw [← hdue] at hsweeps
    rw [← htimes] at ht
    rw [← hstarts] at hs
    exact .early hsweeps (mt hmarks hun) ht hs
  | waiting hodd i t htask hpeer hphase hs =>
    rw [← hdue] at hodd
    rw [← hstarts, ← hlast, ← hdue] at hs
    exact .waiting hodd i t (htasks i t htask hpeer) hpeer hphase hs
  | started hodd i t htask hpeer hphase hs =>
    rw [← hdue] at hodd
    rw [← hstarts, ← hdue] at hs
    exact .started hodd i t (htasks i t htask hpeer) hpeer hphase hs
  | answered hodd hun r ht hr hs =>
    rw [← hdue] at hodd
    rw [← htimes] at ht
    rw [← hlast] at hr
    rw [← hstarts, ← hdue] at hs
    exact .answered hodd (mt hmarks hun) r ht hr hs
  | passedOver heven hsweeps hun r ht hr hs =>
    rw [← hdue] at heven hsweeps
    rw [← htimes] at ht
    rw [← hlast] at hr
    rw [← hstarts, ← hdue] at hs
    exact .passedOver heven hsweeps (mt hmarks hun) r ht hr hs

theorem TaskStep.other (h : TaskStep c d i t) (hp : t.peer ≠ p) (hf : Follows c p) : Follows d p := by
  obtain ⟨phase, hm⟩ := h.moved
  have htasks (j : ℕ) (u : Task P) : c.state.tasks[j]? = some u → u.peer = p → d.state.tasks[j]? = some u := by
    intro hu hpeer
    have hj : i ≠ j := by
      rintro rfl
      obtain rfl := Option.some.inj (hm.task.symm.trans hu)
      exact hp hpeer
    rw [hm.tasks, List.getElem?_set_ne hj]
    exact hu
  have hframe := hf.frame hm.dueSweeps hm.lastSweep htasks
  cases h with
  | start _ _ hmarks htimes hstarted =>
    apply hframe
    · rw [hmarks]
      exact id
    · rw [htimes]
    · rw [starts, hstarted, starts]
  | resume _ _ hmarks htimes hstarted =>
    apply hframe
    · rw [hmarks]
      exact id
    · rw [htimes]
    · rw [starts, hstarted, starts, List.filter_append]
      simp [hp]
  | pingReturns _ _ _ hmarks htimes hstarted =>
    apply hframe
    · rw [hmarks]
      exact id
    · rw [htimes, Dict.get?_set, if_neg (Ne.symm hp)]
    · rw [starts, hstarted, starts]
  | rested _ _ hmarks htimes hstarted =>
    apply hframe
    · rw [hmarks]
      exact Finset.mem_of_mem_erase
    · rw [htimes]
    · rw [starts, hstarted, starts]

theorem TaskStep.follows {events : List (Event P)} (hc : OnTime c) (hs : Marked events c.state)
    (h : TaskStep c d i t) (hf : Follows c p) : Follows d p := by
  by_cases hp : t.peer = p
  · obtain ⟨phase, hm⟩ := h.moved
    have hlive := h.phase_ne
    have hmarked : p ∈ c.state.inflightPings := by
      rw [← hp]
      exact hs.mem hm.task hlive
    have hself (j : ℕ) (u : Task P) (hu : c.state.tasks[j]? = some u) (hpeer : u.peer = p)
        (hphase : u.phase ≠ .finished) : t = u := by
      have hij := hs.unique hm.task hu hlive hphase (hp.trans hpeer.symm)
      rw [← hij] at hu
      exact Option.some.inj (hm.task.symm.trans hu)
    have hin := hc.tasks i t hm.task
    have hlt : i < c.state.tasks.length := (List.getElem?_eq_some_iff.mp hm.task).1
    have hnew {phase : Phase} (hm : Moved c d i t phase) : d.state.tasks[i]? = some { t with phase := phase } := by
      rw [hm.tasks, List.getElem?_set_self hlt]
    cases hf with
    | early _ hun _ _ => exact absurd hmarked hun
    | answered _ hun _ _ _ _ => exact absurd hmarked hun
    | passedOver _ _ hun _ _ _ _ => exact absurd hmarked hun
    | waiting hodd j u hu hpeer hwait hstarts =>
      obtain rfl := hself j u hu hpeer (by rcases hwait with hw | hw <;> simp [hw])
      cases h with
      | start hphase hm _ _ hstarted =>
        refine .waiting ?_ i _ (hnew hm) hp (.inr rfl) ?_
        · rw [hm.dueSweeps]
          exact hodd
        · rw [starts, hstarted, hm.lastSweep, hm.dueSweeps]
          exact hstarts
      | resume hphase hm _ _ hstarted =>
        refine .started ?_ i _ (hnew hm) hp (.inl rfl) ?_
        · rw [hm.dueSweeps]
          exact hodd
        · -- the task has got its permit at the time of the sweep
          simp only [InTime, hphase] at hin
          rw [hm.dueSweeps, ← hstarts, starts, hstarted, List.filter_append, List.map_append]
          simp [starts, hp, hin.2]
      | pingReturns hphase => simp [hphase] at hwait
      | rested hphase => simp [hphase] at hwait
    | started hodd j u hu hpeer hwait hstarts =>
      obtain rfl := hself j u hu hpeer (by rcases hwait with hw | hw <;> simp [hw])
      cases h with
      | start hphase => simp [hphase] at hwait
      | resume hphase => simp [hphase] at hwait
      | pingReturns hphase hm _ _ _ hstarted =>
        refine .started ?_ i _ (hnew hm) hp (.inr rfl) ?_
        · rw [hm.dueSweeps]
          exact hodd
        · rw [starts, hstarted, hm.dueSweeps]
          exact hstarts
      | rested hphase hm hmarks htimes hstarted =>
        simp only [InTime, hphase] at hin
        refine .answered ?_ ?_ (c.since i) ?_ ?_ ?_
        · rw [hm.dueSweeps]
          exact hodd
        · rw [hmarks, hp]
          exact Finset.notMem_erase p _
        · rw [htimes, ← hp]
          exact hin.2.2
        · rw [hm.lastSweep]
          exact hin.1
        · rw [starts, hstarted, hm.dueSweeps]
          exact hstarts
  · exact h.other hp hf

section Sweeping

variable {peers order : List P} {table : Except PyError (Table P)}

theorem follows_taken (hp : p ∈ peers) (hdue : 15 ≤ c.state.now) (heven : c.dueSweeps.length % 2 = 0)
    (hstarts : c.starts p = everyOther c.dueSweeps) : Follows (c.after (c.state.mark peers) (.sweep table order)) p := by
  obtain ⟨k, hk⟩ := List.mem_iff_getElem?.mp hp
  refine .waiting ?_ (c.state.tasks.length + k) ⟨p, .spawned⟩ ?_ rfl (.inl rfl) ?_
  · rw [dueSweeps_sweep, if_pos hdue, List.length_append, List.length_singleton]
    omega
  · change (c.state.tasks ++ peers.map (⟨·, .spawned⟩))[c.state.tasks.length + k]? = _
    rw [List.getElem?_append_right (Nat.le_add_right _ _), Nat.add_sub_cancel_left, List.getElem?_map, hk]
    rfl
  · rw [dueSweeps_sweep, if_pos hdue, everyOther_append_singleton, if_pos heven, lastSweep_sweep]
    exact congrArg (· ++ [c.state.now]) hstarts

theorem sweep_follows {events : List (Event P)} (hc : OnTime c) (hs : Marked events c.state)
    (h : c.step (.sweep table order) = some d) (hp : p ∈ (Event.sweep table order).seen) (hf : Follows c p) :
    Follows d p := by
  obtain ⟨hnow, peers, rfl, -, hpeers⟩ := step_sweep h
  have hun := hc.unmarked hs hnow p
  have hlast : c.state.now = c.lastSweep + 15 := by
    rw [hnow, lastSweep]
    ring
  have hover (hnot : p ∉ peers) : p ∉ (c.state.mark peers).inflightPings := by
    rw [State.mark, Finset.mem_union, List.mem_toFinset]
    exact not_or.mpr ⟨hun, hnot⟩
  have htaken := hpeers p hp
  cases hf with
  | early hsweeps _ htimes hstarts =>
    rw [htimes, Option.getD_none, sub_zero] at htaken
    by_cases hdue : 15 ≤ c.state.now
    · apply follows_taken (htaken.mpr ⟨hun, hdue⟩) hdue
      · rw [hsweeps]
        rfl
      · rw [hsweeps, hstarts]
        rfl
    · refine .early ?_ (hover fun hmem => hdue (htaken.mp hmem).2) htimes hstarts
      rw [dueSweeps_sweep, if_neg hdue, hsweeps]
  | waiting _ i t ht hpeer hphase _ =>
    rw [hc.finished hnow ht] at hphase
    simp at hphase
  | started _ i t ht hpeer hphase _ =>
    rw [hc.finished hnow ht] at hphase
    simp at hphase
  | answered hodd _ r htimes hr hstarts =>
    rw [htimes, Option.getD_some] at htaken
    have hne : c.dueSweeps ≠ [] := by
      intro hnil
      rw [hnil] at hodd
      contradiction
    have hdue := hc.due hnow hne
    refine .passedOver ?_ ?_ (hover fun hmem => ?_) r htimes ?_ ?_
    · rw [dueSweeps_sweep, if_pos hdue, List.length_append, List.length_singleton]
      omega
    · rw [dueSweeps_sweep, if_pos hdue]
      simp
    · -- the answer came after the last sweep, less than 15 s ago
      linarith [(htaken.mp hmem).2, hr.1]
    · rw [lastSweep_sweep]
      linarith [hr.2]
    · rw [dueSweeps_sweep, if_pos hdue, everyOther_append_singleton, if_neg (by omega)]
      exact hstarts
  | passedOver heven hne _ r htimes hr hstarts =>
    rw [htimes, Option.getD_some] at htaken
    exact follows_taken (htaken.mpr ⟨hun, by linarith⟩) (hc.due hnow hne) heven hstarts

end Sweeping

theorem wait_follows {seconds : ℚ} (h : c.step (.wait seconds) = some d) (hf : Follows c p) : Follows d p := by
  obtain ⟨-, s, hs, rfl⟩ := step_ok h
  obtain ⟨-, hs⟩ := Option.ite_none_right_eq_some.mp hs
  obtain rfl := Option.some.inj hs
  exact hf.frame rfl rfl (fun _ _ ht _ => ht) id rfl rfl

structure Keeps (events : List (Event P)) (c : Clocked P) : Prop where
  timely : Timely events c
  follows : ∀ p, ConnectedThroughout events p → Follows c p

theorem init_keeps (now : ℚ) : Keeps [] (.init now : Clocked P) where
  timely := init_timely now
  follows _ _ := .early rfl (Finset.notMem_empty _) rfl rfl

theorem step_keeps {events : List (Event P)} {e : Event P} (hc : Keeps events c) (h : c.step e = some d) :
    Keeps (events ++ [e]) d := by
  refine ⟨step_timely hc.timely h, fun p hp => ?_⟩
  obtain ⟨hmarked, htime, -⟩ := hc.timely
  have hbefore : Follows c p := hc.follows p fun table order he => hp table order (List.mem_append_left _ he)
  cases e with
  | wait seconds => exact wait_follows h hbefore
  | sweep table order => exact sweep_follows htime hmarked h (hp table order (by simp)) hbefore
  | task i act =>
    obtain ⟨t, ht⟩ := step_task h
    exact ht.follows htime hmarked hbefore

theorem Follows.starts_eq (hf : Follows c p)
    (hstarted : ∀ t ∈ c.state.tasks, t.phase ≠ .spawned ∧ t.phase ≠ .acquiring) :
    c.starts p = everyOther c.dueSweeps := by
  cases hf with
  | early hsweeps _ _ hstarts =>
    rw [hsweeps, hstarts]
    rfl
  | waiting _ i t ht _ hphase _ =>
    have hnot := hstarted t (List.mem_of_getElem? ht)
    rcases hphase with hphase | hphase
    · exact absurd hphase hnot.1
    · exact absurd hphase hnot.2
  | started _ _ _ _ _ _ hstarts | answered _ _ _ _ _ hstarts | passedOver _ _ _ _ _ _ hstarts => exact hstarts

theorem OnTime.window (hc : OnTime c) (hstarts : c.starts p = everyOther c.dueSweeps) :
    ∀ first ∈ (c.starts p).head?, ∀ t, first ≤ t → t + 30 ≤ c.state.now →
      ∃ a ∈ c.starts p, t ≤ a ∧ a ≤ t + 30 := by
  rw [hstarts]
  intro first hfirst t ht hnow
  have hsteps : Steps 30 (everyOther c.dueSweeps) := by
    have h := everyOther_steps hc.steps
    norm_num at h
    exact h
  have hne : everyOther c.dueSweeps ≠ [] := by
    intro hnil
    rw [hnil] at hfirst
    contradiction
  have hdue : c.dueSweeps ≠ [] := by
    intro hnil
    rw [hnil] at hne
    exact hne rfl
  obtain ⟨last, hlast⟩ := Option.ne_none_iff_exists'.mp (mt List.getLast?_eq_none_iff.mp hne)
  obtain ⟨sweep, hsweep⟩ := Option.ne_none_iff_exists'.mp (mt List.getLast?_eq_none_iff.mp hdue)
  refine exists_mem_window (by norm_num) hsteps hfirst hlast ht ?_
  have hlater := hc.last sweep hsweep
  have hnext := hc.next
  unfold lastSweep at hlater
  rcases everyOther_last hc.steps hlast hsweep with h | h <;> linarith

theorem OnTime.gap_iff (hc : OnTime c) (hstarts : c.starts p = everyOther c.dueSweeps) :
    (c.starts p).IsChain (fun a b => b - a < 30) ↔ c.dueSweeps.length ≤ 2 := by
  rw [hstarts]
  have hsteps := hc.steps
  match c.dueSweeps, hsteps with
  | [], _ => simp [everyOther]
  | [a], _ => simp [everyOther]
  | [a, b], _ => simp [everyOther]
  | a :: b :: e :: l, h =>
    obtain ⟨hb, hrest⟩ := List.isChain_cons_cons.mp h
    obtain ⟨he, -⟩ := List.isChain_cons_cons.mp hrest
    obtain ⟨m, hm⟩ := everyOther_cons e l
    rw [everyOther, hm]
    refine iff_of_false (fun hgap => ?_) (by simp)
    linarith [(List.isChain_cons_cons.mp hgap).1]

/-- A run on time is a run of the loop, and none of its tasks has to wait for a permit. -/
theorem spaced_iff (now : ℚ) (events : List (Event P)) (c : Clocked P)
    (h : Run (fun c e d => c.step e = some d) (.init now) events c) :
    ((∀ t ∈ c.state.tasks, t.phase ≠ .spawned ∧ t.phase ≠ .acquiring) →
      ((∀ p, ConnectedThroughout events p → Spaced c p) ↔
        ((∃ p, ConnectedThroughout events p) → (c.sweeps.filter (15 ≤ ·)).length ≤ 2))) ∧
    Run (fun s e u => KeepAlive.step s e = some u) (Clocked.init now).state events c.state ∧
    ∀ i t, c.state.tasks[i]? = some t → t.phase = .acquiring → ∃ d, c.step (.task i .resume) = some d := by
  have hc : Keeps events c := h.history (fun _ _ _ _ hc he => step_keeps hc he) (init_keeps now)
  refine ⟨fun hstarted => ?_, run_state h, fun i t => acquiring_resumes now events c h⟩
  have hstarts (p : P) (hp : ConnectedThroughout events p) : c.starts p = everyOther c.dueSweeps :=
    (hc.follows p hp).starts_eq hstarted
  constructor
  · rintro hspaced ⟨p, hp⟩
    exact (hc.timely.onTime.gap_iff (hstarts p hp)).mp (hspaced p hp).gap
  · intro hfew p hp
    exact ⟨hc.timely.onTime.window (hstarts p hp), (hc.timely.onTime.gap_iff (hstarts p hp)).mpr (hfew ⟨p, hp⟩)⟩

def oneOpen : Except PyError (Table String) := .ok [("QmA", [.ok false])]

/-- A ping that takes a second, and the next sweep, which comes too early for another. -/
def twoSweeps : List (Event String) :=
  [.wait 15, .sweep oneOpen ["QmA"], .task 0 .start, .task 0 .resume, .wait 1, .task 0 .pingReturns, .wait (1 / 10),
    .task 0 .rested, .wait (139 / 10), .sweep oneOpen ["QmA"]]

theorem spaced_iff_twoSweeps :
    let c := stateAfter step (.init 0) twoSweeps (by decide +kernel)
    c.starts "QmA" = [15] ∧ ∀ p, ConnectedThroughout twoSweeps p → Spaced c p := by
  refine ⟨by decide +kernel, ?_⟩
  exact ((spaced_iff 0 twoSweeps _ (run_stateAfter step (.init 0) twoSweeps _)).1 (by decide +kernel)).mpr fun _ => by
    decide +kernel

def threeSweeps : List (Event String) :=
  twoSweeps ++ [.wait 15, .sweep oneOpen ["QmA"], .task 1 .start, .task 1 .resume]

theorem spaced_fails : ¬∀ (events : List (Event String)) (c : Clocked String),
    Run (fun c e d => c.step e = some d) (.init 0) events c →
    (∀ t ∈ c.state.tasks, t.phase ≠ .spawned ∧ t.phase ≠ .acquiring) →
    ∀ p, ConnectedThroughout events p → Spaced c p := by
  intro hall
  have hrun := run_stateAfter step (.init 0) threeSweeps (by decide +kernel)
  have hconnected : ConnectedThroughout threeSweeps "QmA" := by
    intro table order he
    obtain ⟨rfl, -⟩ : table = oneOpen ∧ order = ["QmA"] := by simpa [threeSweeps, twoSweeps] using he
    exact List.mem_singleton.mpr rfl
  have hgap := (hall threeSweeps _ hrun (by decide +kernel) "QmA" hconnected).gap
  have hstarts : (stateAfter step (.init 0) threeSweeps (by decide +kernel)).starts "QmA" = [15, 45] := by
    decide +kernel
  rw [hstarts] at hgap
  exact absurd (List.isChain_cons_cons.mp hgap).1 (by norm_num)

end Clocked

end IpfsLite.KeepAlive
