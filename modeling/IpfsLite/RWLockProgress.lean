import IpfsLite.RWLockSafety
import Mathlib.Algebra.BigOperators.Group.Finset.Basic

/-!
What `RWLock` owes a task that waits: the tasks that use the lock can always go on, and when no other comes
all of them are through after a bounded number of steps.
-/

namespace IpfsLite.RWLock

open Trio Runs

variable {τ : Type*}

def Pc.remaining : Pc → ℕ
  | .outside => 0
  | .exitLock | .writing => 1
  | .reading | .writeSemaphore => 2
  | .entrySemaphore => 3
  | .entryLock => 4

def Left (s : State τ) (n : ℕ) : Prop :=
  ∃ U : Finset τ, (∀ u ∉ U, s.pc u = .outside) ∧ ∑ u ∈ U, (s.pc u).remaining = n

theorem left_initial : Left (State.initial : State τ) 0 := ⟨∅, fun _ _ => rfl, rfl⟩

theorem Left.outside {s : State τ} (h : Left s 0) (t : τ) : s.pc t = .outside := by
  obtain ⟨U, hU, hsum⟩ := h
  by_cases ht : t ∈ U
  · have hzero := Finset.sum_eq_zero_iff.mp hsum t ht
    cases hp : s.pc t <;> simp [hp, Pc.remaining] at hzero ⊢
  · exact hU t ht

variable [DecidableEq τ]

theorem Left.move {s s' : State τ} {t : τ} {n : ℕ} (h : Left s n) (hother : ∀ u ≠ t, s'.pc u = s.pc u) :
    ∃ k, Left s' k ∧ k + (s.pc t).remaining = n + (s'.pc t).remaining := by
  obtain ⟨U, hU, hsum⟩ := h
  have hrest : ∑ u ∈ U.erase t, (s.pc u).remaining + (s.pc t).remaining = n := by
    rw [← hsum]
    by_cases ht : t ∈ U
    · exact Finset.sum_erase_add U _ ht
    · rw [Finset.erase_eq_of_notMem ht, hU t ht]
      rfl
  have hsame : ∑ u ∈ U.erase t, (s'.pc u).remaining = ∑ u ∈ U.erase t, (s.pc u).remaining := by
    refine Finset.sum_congr rfl fun u hu => ?_
    rw [hother u (Finset.ne_of_mem_erase hu)]
  refine ⟨∑ u ∈ insert t (U.erase t), (s'.pc u).remaining, ⟨insert t (U.erase t), ?_, rfl⟩, ?_⟩
  · intro u hu
    rw [Finset.mem_insert, Finset.mem_erase, not_or, not_and] at hu
    rw [hother u hu.1]
    exact hU u (hu.2 hu.1)
  · rw [Finset.sum_insert (Finset.notMem_erase t U), hsame]
    omega

def Serves (a : Act) : Prop := a = .resume ∨ a = .leave

def Serving (s : State τ) (e : τ × Act) (s' : State τ) : Prop := Step s e s' ∧ Serves e.2

omit [DecidableEq τ] in
theorem Serves.not_cancels {a : Act} (h : Serves a) : ¬(CancelsEntry a ∨ CancelsExit a) := by
  rcases h with rfl | rfl <;> simp [CancelsEntry, CancelsExit]

theorem serves_mem {s s' : State τ} {fs : List (τ × Act)} (h : Run Serving s fs s') : ∀ e ∈ fs, Serves e.2 := by
  refine h.history (P := fun fs _ => ∀ e ∈ fs, Serves e.2) ?_ (by simp)
  intro fs u e v hfs hs f hf
  rcases List.mem_append.mp hf with hf | hf
  · exact hfs f hf
  · rw [List.mem_singleton.mp hf]
    exact hs.2

def Begins (a : Act) : Prop := a = .enterRead ∨ a = .enterWrite

instance (a : Act) : Decidable (Begins a) := inferInstanceAs (Decidable (_ ∨ _))

def usesOf (es : List (τ × Act)) : ℕ := es.countP fun e => Begins e.2

theorem remaining_serves {s s' : State τ} {t : τ} {a : Act} (h : Segment s t a s') (ha : Serves a) :
    (s'.pc t).remaining < (s.pc t).remaining := by
  have hmoves : Moves a (s.pc t) (s'.pc t) := by
    refine segment_moves h fun w => ?_
    rcases ha with rfl | rfl <;> simp
  generalize s.pc t = p at hmoves
  generalize s'.pc t = q at hmoves
  cases hmoves with
  | enterRead | enterWrite => simp [Serves] at ha
  | _ => simp [Pc.remaining]

theorem remaining_step {s s' : State τ} {t : τ} {a : Act} (h : Segment s t a s') :
    (s'.pc t).remaining ≤ (s.pc t).remaining + if Begins a then 4 else 0 := by
  have hgoto (p : Pc) (l : RWLock τ) : (s.goto t p l).pc t = p := Function.update_self ..
  by_cases ha : Serves a
  · have hless := remaining_serves h ha
    omega
  cases h with
  | enterRead hp => rw [enterRead, hgoto, if_pos (.inl rfl)]; exact Nat.le_add_left _ _
  | enterWrite hp => rw [enterWrite, hgoto, if_pos (.inr rfl)]; simp [Pc.remaining]
  | refuse => exact Nat.le_add_right _ _
  | awaitSemaphore | joinReaders | startReading | finishRead | startWriting => exact absurd (.inl rfl) ha
  | leaveBody | finishWrite => exact absurd (.inr rfl) ha
  | refuseSemaphore => rw [refuseSemaphore, hgoto]; exact Nat.zero_le _
  | abandonSemaphore => rw [abandonSemaphore, hgoto]; exact Nat.zero_le _
  | cancelExit => rw [hgoto]; exact Nat.zero_le _
  | abandonEntry | abandonExit => rw [abandonCountLock, hgoto]; exact Nat.zero_le _
  | abandonWrite => rw [abandonWrite, hgoto]; exact Nat.zero_le _

theorem left_run {s : State τ} {es : List (τ × Act)} (h : Run Step State.initial es s) :
    ∃ n ≤ 4 * usesOf es, Left s n := by
  refine h.history (P := fun es s => ∃ n ≤ 4 * usesOf es, Left s n) ?_ ⟨0, le_rfl, left_initial⟩
  rintro es u e v ⟨n, hn, hleft⟩ hs
  have hsegment := step_cases hs
  obtain ⟨k, hk, hsum⟩ := hleft.move fun w hw => segment_pc_other hsegment hw
  have hstep := remaining_step hsegment
  refine ⟨k, ?_, hk⟩
  rw [usesOf, List.countP_append, List.countP_singleton, ← usesOf]
  split_ifs at hstep ⊢ with hbegins
  · omega
  · simp_all
  · simp_all
  · omega

theorem length_serving {s s' : State τ} {fs : List (τ × Act)} {n : ℕ} (h : Run Serving s fs s')
    (hleft : Left s n) : ∃ k, Left s' k ∧ fs.length + k ≤ n := by
  refine h.history (P := fun fs s => ∃ k, Left s k ∧ fs.length + k ≤ n) ?_ ⟨n, hleft, by simp⟩
  rintro fs u e v ⟨k, hk, hlength⟩ ⟨hs, hserves⟩
  have hsegment := step_cases hs
  obtain ⟨k', hk', hsum⟩ := hk.move fun w hw => segment_pc_other hsegment hw
  have hless := remaining_serves hsegment hserves
  refine ⟨k', hk', ?_⟩
  rw [List.length_append, List.length_singleton]
  omega

def Ready (s : State τ) (t : τ) : Prop := ∃ a s', Serving s (t, a) s'

theorem ready_body {s : State τ} {t : τ} (h : s.pc t = .reading ∨ s.pc t = .writing) : Ready s t := by
  rcases h with h | h
  · exact ⟨.leave, leaveBody s t, by simp [Step, step, h], .inr rfl⟩
  · exact ⟨.leave, finishWrite s t, by simp [Step, step, h], .inr rfl⟩

theorem ready_countLock {s : State τ} {t : τ} (h : s.pc t = .entryLock ∨ s.pc t = .exitLock)
    (hw : t ∉ s.lock.readCountLock.waiters) : Ready s t := by
  rcases h with h | h
  · by_cases hc : s.lock.readCount + 1 = 1
    · exact ⟨.resume, awaitSemaphore s t, by simp only [Step, step, h, if_neg hw, if_pos hc], .inl rfl⟩
    · exact ⟨.resume, joinReaders s t, by simp only [Step, step, h, if_neg hw, if_neg hc], .inl rfl⟩
  · exact ⟨.resume, finishRead s t, by simp [Step, step, h, hw], .inl rfl⟩

theorem ready_permit {s : State τ} {t : τ} (h : s.pc t = .entrySemaphore ∨ s.pc t = .writeSemaphore)
    (hw : t ∉ s.lock.writeLock.waiters) : Ready s t := by
  rcases h with h | h
  · exact ⟨.resume, startReading s t, by simp [Step, step, h, hw], .inl rfl⟩
  · exact ⟨.resume, startWriting s t, by simp [Step, step, h, hw], .inl rfl⟩

section Progress

variable {s : State τ} {holder : Holder τ}

theorem Exclusive.ready_owner (h : Exclusive s holder) {t : τ} (ht : (s.pc t).usesCountLock = true)
    (hentry : ∀ u, s.pc u = .entrySemaphore → u ∉ s.lock.writeLock.waiters) : ∃ u, Ready s u := by
  obtain ⟨o, ho⟩ : ∃ o, s.lock.readCountLock.owner = some o := by
    cases howner : s.lock.readCountLock.owner with
    | some o => exact ⟨o, rfl⟩
    | none =>
      rcases (h.lock.mem t).mp ht with hown | hwait
      · rw [howner] at hown
        cases hown
      · rw [h.lock.free howner] at hwait
        cases hwait
  have hnot : o ∉ s.lock.readCountLock.waiters := fun hc => h.lock.owner o hc ho
  have huses : (s.pc o).usesCountLock = true := h.lock.owner_mem ho
  refine ⟨o, ?_⟩
  cases hp : s.pc o with
  | entryLock => exact ready_countLock (.inl hp) hnot
  | exitLock => exact ready_countLock (.inr hp) hnot
  | entrySemaphore => exact ready_permit (.inl hp) (hentry o hp)
  | _ => simp [hp, Pc.usesCountLock] at huses

theorem Exclusive.ready_holder (h : Exclusive s holder) (hcounts : Counts s 0) (hh : holder ≠ .nobody) :
    ∃ u, Ready s u := by
  cases holder with
  | nobody => exact absurd rfl hh
  | writer w =>
    rcases (h.writer w).mpr rfl with hp | ⟨hp, hw⟩
    · exact ⟨w, ready_body (.inr hp)⟩
    · exact ⟨w, ready_permit (.inr hp) hw⟩
  | readers =>
    obtain ⟨hpos, hentry⟩ := h.readers.mpr rfl
    obtain ⟨R, hR, hcount⟩ := hcounts
    obtain ⟨r, hr⟩ := Finset.card_pos.mp (by omega : 0 < R.card)
    have hcounted := (hR r).mp hr
    cases hp : s.pc r with
    | entrySemaphore => exact ⟨r, ready_permit (.inl hp) (hentry r hp)⟩
    | reading => exact ⟨r, ready_body (.inl hp)⟩
    | exitLock => exact h.ready_owner (t := r) (by rw [hp]; rfl) hentry
    | _ => simp [hp, Pc.counted] at hcounted

theorem Exclusive.progress (h : Exclusive s holder) (hcounts : Counts s 0) {t : τ} (ht : s.pc t ≠ .outside) :
    ∃ u, Ready s u := by
  by_cases hh : holder = .nobody
  · -- the permit is there, so nobody is parked on it
    have hfree : s.lock.writeLock.waiters = [] := (h.permit.free (not_not.mpr hh)).2
    have hnone (u : τ) : u ∉ s.lock.writeLock.waiters := by
      rw [hfree]
      exact List.not_mem_nil
    cases hp : s.pc t with
    | outside => exact absurd hp ht
    | entryLock | entrySemaphore | exitLock =>
      exact h.ready_owner (t := t) (by rw [hp]; rfl) fun u _ => hnone u
    | reading => exact ⟨t, ready_body (.inl hp)⟩
    | writing => exact ⟨t, ready_body (.inr hp)⟩
    | writeSemaphore => exact ⟨t, ready_permit (.inr hp) (hnone t)⟩
  · exact h.ready_holder hcounts hh

end Progress

def Pc.asks : Pc → Bool
  | .outside | .exitLock => false
  | _ => true

theorem asks_serving {s s' : State τ} {fs : List (τ × Act)} {t : τ} (h : Run Serving s fs s')
    (ht : (s.pc t).asks = true) : (t, .leave) ∈ fs ∨ (s'.pc t).asks = true := by
  refine h.history (P := fun fs s => (t, .leave) ∈ fs ∨ (s.pc t).asks = true) ?_ (.inr ht)
  rintro fs u ⟨w, a⟩ v hu ⟨hs, hserves⟩
  rcases hu with hmem | hasks
  · exact .inl (List.mem_append_left _ hmem)
  · have hsegment := step_cases hs
    by_cases hw : t = w
    · subst hw
      have hmoves : Moves a (u.pc t) (v.pc t) := by
        refine segment_moves hsegment fun w => ?_
        rcases hserves with ha | ha <;> simp [show a = _ from ha]
      generalize u.pc t = p at hmoves hasks
      generalize v.pc t = q at hmoves
      cases hmoves with
      | leave | finishWrite => exact .inl (by simp)
      | enterRead | enterWrite => simp [Serves] at hserves
      | finish => simp [Pc.asks] at hasks
      | await | join | start | startWriting => exact .inr rfl
    · rw [segment_pc_other hsegment hw]
      exact .inr hasks

/-- Unless a reader was cancelled so that the count has lost it: whatever the order of steps, once no other
task comes the lock is used up after at most four steps for each use, and nobody is stuck before that; who had
asked for the lock has had it. -/
theorem drains {s : State τ} {es : List (τ × Act)} (h : Run Step State.initial es s)
    (hes : ∀ e ∈ es, ¬(CancelsEntry e.2 ∨ CancelsExit e.2)) {s' : State τ} {fs : List (τ × Act)}
    (hrun : Run Serving s fs s') : fs.length ≤ 4 * usesOf es ∧ ((∃ t, Ready s' t) ∨
      ∀ t, s'.pc t = .outside ∧ ((s.pc t).asks = true → (t, .leave) ∈ fs)) := by
  obtain ⟨n, hn, hleft⟩ := left_run h
  obtain ⟨k, -, hlength⟩ := length_serving hrun hleft
  refine ⟨by omega, ?_⟩
  have hwhole : Run Step State.initial (es ++ fs) s' := h.trans (hrun.mono fun _ _ _ hs => hs.1)
  have hcancels : ∀ e ∈ es ++ fs, ¬(CancelsEntry e.2 ∨ CancelsExit e.2) := by
    intro e he
    rcases List.mem_append.mp he with he | he
    · exact hes e he
    · exact (serves_mem hrun e he).not_cancels
  by_cases hall : ∀ t, s'.pc t = .outside
  · refine .inr fun t => ⟨hall t, fun hasks => ?_⟩
    rcases asks_serving hrun hasks with hmem | hasks
    · exact hmem
    · rw [hall t] at hasks
      cases hasks
  · push Not at hall
    obtain ⟨t, ht⟩ := hall
    obtain ⟨holder, hexclusive⟩ := exclusive_run hwhole fun e he hc => hcancels e he (.inl hc)
    have hcounts := counts_run hwhole
    have hzero : lossesOf (es ++ fs) = 0 := by
      refine List.sum_eq_zero_iff.mpr fun n hn => ?_
      obtain ⟨e, he, rfl⟩ := List.mem_map.mp hn
      exact if_neg (hcancels e he)
    rw [hzero] at hcounts
    exact .inl (hexclusive.progress hcounts ht)

theorem drains_waiting : ∃ s s' : State (Fin 3), (∃ fs, Run Serving s fs s' ∧ fs.length ≤ 12) ∧
    s.pc 1 = .entrySemaphore ∧ s.pc 2 = .writeSemaphore ∧ ∀ t, s'.pc t = .outside := by
  let es : List (Fin 3 × Act) := [(0, .enterWrite), (0, .resume), (1, .enterRead), (1, .resume), (2, .enterWrite)]
  let fs : List (Fin 3 × Act) := [(0, .leave), (1, .resume), (1, .leave), (1, .resume), (2, .resume), (2, .leave)]
  obtain ⟨s, hrun, hp⟩ := exists_run stepEvent State.initial es
    (fun s => s.pc 1 = .entrySemaphore ∧ s.pc 2 = .writeSemaphore ∧
      (fs.foldlM stepEvent s).any fun s' => ∀ t, s'.pc t = .outside) (by decide +kernel)
  obtain ⟨h1, h2, hfs⟩ := of_decide_eq_true hp
  obtain ⟨s', hserved, hq⟩ := exists_run stepEvent s fs _ hfs
  have hserving : Run Serving s fs s' := hserved.restrict (by simp [fs, Serves])
  have hlength := (drains hrun (by decide) hserving).1
  exact ⟨s, s', ⟨fs, hserving, hlength⟩, h1, h2, of_decide_eq_true hq⟩

section Overtaking

def place (s : State τ) (t : τ) : ℕ := s.lock.writeLock.waiters.idxOf t

def handsOver (s : State τ) (e : τ × Act) : ℕ :=
  if s.pc e.1 = .writing ∧ e.2 = .leave ∨ s.pc e.1 = .exitLock ∧ e.2 = .resume ∧ s.lock.readCount = 1 then 1 else 0

/-- A step while `t` is parked, with the number of times that the permit is released. -/
def WhileParked (t : τ) (s : State τ) (e : (τ × Act) × ℕ) (s' : State τ) : Prop :=
  Step s e.1 s' ∧ t ∈ s.lock.writeLock.waiters ∧ t ∈ s'.lock.writeLock.waiters ∧ e.2 = handsOver s e.1

structure Queued (s : State τ) : Prop where
  nodup : s.lock.writeLock.waiters.Nodup
  free : 0 < s.lock.writeLock.value → s.lock.writeLock.waiters = []
  waits : ∀ t ∈ s.lock.writeLock.waiters, s.pc t = .entrySemaphore ∨ s.pc t = .writeSemaphore

omit [DecidableEq τ] in
theorem queued_initial : Queued (State.initial : State τ) := by
  constructor <;> simp [State.initial, initial, Semaphore.initial]

inductive QueueMove (s : State τ) (t : τ) (k : ℕ) (s' : State τ) : Prop
  | stay (hs : s' = s) (hk : k = 0)
  | keep (hnot : t ∉ s.lock.writeLock.waiters) (hsem : s'.lock.writeLock = s.lock.writeLock) (hk : k = 0)
  | park (hnot : t ∉ s.lock.writeLock.waiters) (hsem : s'.lock.writeLock = s.lock.writeLock.acquire t)
    (hp : s'.pc t = .entrySemaphore ∨ s'.pc t = .writeSemaphore) (hk : k = 0)
  | release (hnot : t ∉ s.lock.writeLock.waiters) (hsem : s'.lock.writeLock = s.lock.writeLock.release) (hk : k = 1)
  | abandon (hmem : t ∈ s.lock.writeLock.waiters) (hsem : s'.lock.writeLock = s.lock.writeLock.abandon t) (hk : k = 0)

theorem Queued.move {s s' : State τ} {t : τ} {a : Act} (hq : Queued s) (h : Segment s t a s') :
    QueueMove s t (handsOver s (t, a)) s' := by
  have hgoto (p : Pc) (l : RWLock τ) : (s.goto t p l).pc t = p := Function.update_self ..
  have hnot (hp : s.pc t ≠ .entrySemaphore ∧ s.pc t ≠ .writeSemaphore) : t ∉ s.lock.writeLock.waiters := by
    intro hmem
    rcases hq.waits t hmem with hc | hc
    · exact hp.1 hc
    · exact hp.2 hc
  cases h with
  | refuse => exact .stay rfl (by simp [handsOver])
  | enterRead hp | joinReaders hp | refuseSemaphore hp | leaveBody hp | cancelExit hp | abandonEntry hp | abandonExit hp =>
    exact .keep (hnot (by simp [hp])) rfl (by simp [handsOver, hp])
  | startReading hp hw | startWriting hp hw => exact .keep hw rfl (by simp [handsOver, hp])
  | awaitSemaphore hp => exact .park (hnot (by simp [hp])) rfl (.inl (hgoto _ _)) (by simp [handsOver, hp])
  | enterWrite hp => exact .park (hnot (by simp [hp])) rfl (.inr (hgoto _ _)) (by simp [handsOver, hp])
  | abandonSemaphore hp hw | abandonWrite hp hw => exact .abandon hw rfl (by simp [handsOver, hp])
  | finishWrite hp => exact .release (hnot (by simp [hp])) rfl (by simp [handsOver, hp])
  | finishRead hp =>
    by_cases hlast : s.lock.readCount = 1
    · refine .release (hnot (by simp [hp])) ?_ (by simp [handsOver, hp, hlast])
      simp [finishRead, releaseCountLock, hlast]
    · refine .keep (hnot (by simp [hp])) ?_ (by simp [handsOver, hp, hlast])
      have hmore : s.lock.readCount - 1 ≠ 0 := by omega
      simp [finishRead, releaseCountLock, hmore]

theorem Queued.step {s s' : State τ} {t : τ} {a : Act} (hq : Queued s) (h : Segment s t a s') : Queued s' := by
  have hother (u : τ) (hu : u ≠ t) : s'.pc u = s.pc u := segment_pc_other h hu
  cases hq.move h with
  | stay hs => exact hs ▸ hq
  | keep hnot hsem =>
    refine ⟨hsem ▸ hq.nodup, hsem ▸ hq.free, fun u hu => ?_⟩
    rw [hsem] at hu
    rw [hother u fun hc => hnot (hc ▸ hu)]
    exact hq.waits u hu
  | park hnot hsem hp =>
    by_cases hvalue : 0 < s.lock.writeLock.value
    · have hempty : s'.lock.writeLock.waiters = [] := by
        rw [hsem, Semaphore.acquire, if_pos hvalue]
        exact hq.free hvalue
      exact ⟨by simp [hempty], fun _ => hempty, by simp [hempty]⟩
    · rw [Semaphore.acquire, if_neg hvalue] at hsem
      refine ⟨?_, fun hpos => ?_, fun u hu => ?_⟩
      · rw [hsem]
        exact hq.nodup.append (List.nodup_singleton t) (by simpa using hnot)
      · rw [hsem] at hpos
        exact absurd hpos hvalue
      · by_cases hut : u = t
        · rwa [hut]
        · rw [hother u hut]
          exact hq.waits u (by simpa [hsem, hut] using hu)
  | release hnot hsem =>
    have hsub (u : τ) (hu : u ∈ s'.lock.writeLock.waiters) : u ∈ s.lock.writeLock.waiters := by
      rw [hsem, Semaphore.mem_release_waiters hq.nodup] at hu
      exact hu.1
    refine ⟨?_, fun hpos => ?_, fun u hu => ?_⟩
    · rw [hsem, Semaphore.release]
      cases hw : s.lock.writeLock.waiters with
      | nil => simp
      | cons w ws => exact (hw ▸ hq.nodup).of_cons
    · rw [hsem, Semaphore.release] at hpos ⊢
      cases hw : s.lock.writeLock.waiters with
      | nil => simp
      | cons w ws =>
        rw [hw] at hpos
        rw [hq.free hpos] at hw
        cases hw
    · rw [hother u fun hc => hnot (hc ▸ hsub u hu)]
      exact hq.waits u (hsub u hu)
  | abandon hmem hsem =>
    rw [Semaphore.abandon] at hsem
    refine ⟨?_, fun hpos => ?_, fun u hu => ?_⟩
    · rw [hsem]
      exact hq.nodup.erase t
    · rw [hsem] at hpos ⊢
      simp [hq.free hpos]
    · rw [hsem] at hu
      obtain ⟨hut, hu⟩ := hq.nodup.mem_erase_iff.mp hu
      rw [hother u hut]
      exact hq.waits u hu

theorem idxOf_erase_le {ts : List τ} {t u : τ} (hu : u ≠ t) : (ts.erase t).idxOf u ≤ ts.idxOf u := by
  induction ts with
  | nil => exact le_rfl
  | cons w ws ih =>
    by_cases hw : w = t
    · subst hw
      rw [List.erase_cons_head, List.idxOf_cons_ne _ hu.symm]
      exact Nat.le_succ _
    · rw [List.erase_cons_tail (by simpa using hw)]
      by_cases hwu : w = u
      · subst hwu
        simp
      · rw [List.idxOf_cons_ne _ hwu, List.idxOf_cons_ne _ hwu]
        omega

theorem Queued.place_step {s s' : State τ} {t u : τ} {a : Act} (hq : Queued s) (h : Segment s t a s')
    (hu : u ∈ s.lock.writeLock.waiters) (hu' : u ∈ s'.lock.writeLock.waiters) :
    place s' u + handsOver s (t, a) ≤ place s u := by
  unfold place
  cases hq.move h with
  | stay hs hk => rw [hs, hk]; exact le_rfl
  | keep _ hsem hk => rw [hsem, hk]; exact le_rfl
  | park _ hsem _ hk =>
    rw [hsem, hk, Semaphore.acquire]
    split_ifs
    · exact le_rfl
    · exact (List.idxOf_append_of_mem hu).le
  | release _ hsem hk =>
    rw [hsem, hk]
    cases hw : s.lock.writeLock.waiters with
    | nil =>
      rw [hw] at hu
      cases hu
    | cons w ws =>
      have hne : w ≠ u := by
        rw [hsem, Semaphore.mem_release_waiters hq.nodup, hw] at hu'
        simpa using hu'.2
      rw [Semaphore.release, hw, List.idxOf_cons_ne _ hne]
  | abandon _ hsem hk =>
    have hut : u ≠ t := by
      rw [hsem] at hu'
      exact (hq.nodup.mem_erase_iff.mp hu').1
    rw [hsem, hk]
    exact idxOf_erase_le hut

theorem queued_run {s : State τ} {es : List (τ × Act)} (h : Run Step State.initial es s) : Queued s :=
  h.invariant (fun _ _ _ hq hs => hq.step (step_cases hs)) queued_initial

theorem place_run {s s' : State τ} {t : τ} {fs : List ((τ × Act) × ℕ)} (hq : Queued s)
    (h : Run (WhileParked t) s fs s') : (fs.map Prod.snd).sum + place s' t ≤ place s t := by
  have hrun : Queued s' ∧ (fs.map Prod.snd).sum + place s' t ≤ place s t := by
    refine h.history (P := fun fs u => Queued u ∧ (fs.map Prod.snd).sum + place u t ≤ place s t) ?_ ⟨hq, by simp⟩
    rintro fs u ⟨⟨w, a⟩, k⟩ v ⟨hu, hplace⟩ ⟨hs, hbefore, hafter, hk⟩
    dsimp only at hk
    have hsegment := step_cases hs
    have hstep := hu.place_step hsegment hbefore hafter
    rw [← hk] at hstep
    refine ⟨hu.step hsegment, ?_⟩
    rw [List.map_append, List.sum_append, List.map_singleton, List.sum_singleton]
    omega
  exact hrun.2

/-- Reader `n + 1` reads, and writer 0 waits. -/
def shared (n : ℕ) : State ℕ :=
  ⟨⟨⟨0, [0]⟩, 1, .unlocked⟩, fun u => if u = 0 then .writeSemaphore else if u = n + 1 then .reading else .outside⟩

theorem run_shared : Run Step State.initial
    [(1, .enterRead), (1, .resume), (1, .resume), (0, .enterWrite)] (shared 0) := by
  let s₁ : State ℕ := enterRead .initial 1
  let s₂ := awaitSemaphore s₁ 1
  let s₃ := startReading s₂ 1
  have h₁ : Step State.initial (1, .enterRead) s₁ := rfl
  have h₂ : Step s₁ (1, .resume) s₂ := rfl
  have h₃ : Step s₂ (1, .resume) s₃ := rfl
  have h₄ : Step s₃ (0, .enterWrite) (enterWrite s₃ 0) := rfl
  have hshared : enterWrite s₃ 0 = shared 0 := by
    have hpc : (enterWrite s₃ 0).pc = (shared 0).pc := by
      funext u
      simp only [s₃, s₂, s₁, enterWrite, startReading, awaitSemaphore, enterRead, goto_pc, State.initial, shared]
      split_ifs <;> rfl
    exact congrArg (State.mk (shared 0).lock) hpc
  rw [← hshared]
  exact .head h₁ (.head h₂ (.head h₃ (.single h₄)))

theorem shared_next (n : ℕ) : Run (WhileParked 0) (shared n)
    [((n + 2, .enterRead), 0), ((n + 2, .resume), 0), ((n + 1, .leave), 0), ((n + 1, .resume), 0)]
    (shared (n + 1)) := by
  let s₁ := enterRead (shared n) (n + 2)
  let s₂ := joinReaders s₁ (n + 2)
  let s₃ := leaveBody s₂ (n + 1)
  have hparked : (0 : ℕ) ∈ (shared n).lock.writeLock.waiters := by simp [shared]
  have h₁ : WhileParked 0 (shared n) ((n + 2, .enterRead), 0) s₁ := by
    refine ⟨?_, hparked, hparked, ?_⟩
    · simp [Step, step, shared, s₁]
    · simp [handsOver, shared]
  have h₂ : WhileParked 0 s₁ ((n + 2, .resume), 0) s₂ := by
    refine ⟨?_, hparked, hparked, ?_⟩
    · simp [Step, step, shared, s₁, s₂, enterRead, Lock.acquire, Lock.unlocked]
    · simp [handsOver, s₁, enterRead]
  have h₃ : WhileParked 0 s₂ ((n + 1, .leave), 0) s₃ := by
    refine ⟨?_, hparked, hparked, ?_⟩
    · simp [Step, step, shared, s₁, s₂, s₃, enterRead, joinReaders]
    · simp [handsOver, s₁, s₂, enterRead, joinReaders, shared]
  have h₄ : WhileParked 0 s₃ ((n + 1, .resume), 0) (finishRead s₃ (n + 1)) := by
    refine ⟨?_, hparked, hparked, ?_⟩
    · simp [Step, step, shared, s₁, s₂, s₃, enterRead, joinReaders, leaveBody, releaseCountLock, countReader,
        Lock.acquire, Lock.release, Lock.unlocked]
    · simp [handsOver, s₁, s₂, s₃, enterRead, joinReaders, leaveBody, shared, releaseCountLock, countReader]
  have hshared : finishRead s₃ (n + 1) = shared (n + 1) := by
    have hpc : (finishRead s₃ (n + 1)).pc = (shared (n + 1)).pc := by
      funext u
      simp only [s₃, s₂, s₁, finishRead, leaveBody, joinReaders, enterRead, goto_pc, shared]
      split_ifs <;> first | rfl | omega
    exact congrArg (State.mk (shared (n + 1)).lock) hpc
  rw [← hshared]
  exact .head h₁ (.head h₂ (.head h₃ (.single h₄)))

theorem run_readers (n : ℕ) : ∃ fs, Run (WhileParked 0) (shared 0) fs (shared n) ∧
    ∀ r ∈ List.range' 1 n, ((r + 1, .enterRead), 0) ∈ fs ∧ ((r, .leave), 0) ∈ fs := by
  induction n with
  | zero => exact ⟨[], .refl, by simp⟩
  | succ n ih =>
    obtain ⟨fs, hrun, hreaders⟩ := ih
    refine ⟨_, hrun.trans (shared_next n), fun r hr => ?_⟩
    rw [List.range'_1_concat, List.mem_append, List.mem_singleton] at hr
    rcases hr with hr | rfl
    · obtain ⟨hjoins, hleaves⟩ := hreaders r hr
      exact ⟨List.mem_append_left _ hjoins, List.mem_append_left _ hleaves⟩
    · rw [Nat.add_comm 1 n]
      exact ⟨List.mem_append_right _ (by simp), List.mem_append_right _ (by simp)⟩

/-- While a task is parked, the permit is released at most once for each task that was parked before it, in
every run. Readers can pass it without a release, and as many as may come: none of them stays, and none of
those that were reading when it was parked does. -/
theorem overtaking : (∀ (τ : Type) [DecidableEq τ] (t : τ) (es : List (τ × Act)) (s s' : State τ)
      (fs : List ((τ × Act) × ℕ)), Run Step State.initial es s → Run (WhileParked t) s fs s' →
      (fs.map Prod.snd).sum + place s' t ≤ place s t) ∧
    ∀ n, ∃ (es : List (ℕ × Act)) (s s' : State ℕ) (fs : List ((ℕ × Act) × ℕ)) (readers : List ℕ),
      Run Step State.initial es s ∧ s.pc 0 = .writeSemaphore ∧ place s 0 = 0 ∧ Run (WhileParked 0) s fs s' ∧
      (fs.map Prod.snd).sum = 0 ∧ (∀ r, s.pc r = .reading → ((r, .leave), 0) ∈ fs) ∧
      readers.Nodup ∧ readers.length = n ∧ ∀ r ∈ readers, s.pc r = .outside ∧
        ((r, .enterRead), 0) ∈ fs ∧ ((r, .leave), 0) ∈ fs := by
  constructor
  · intro τ _ t es s s' fs h hrun
    exact place_run (queued_run h) hrun
  · intro n
    obtain ⟨fs, hrun, hreaders⟩ := run_readers (n + 1)
    have hnone : (fs.map Prod.snd).sum = 0 :=
      Nat.le_zero.mp ((Nat.le_add_right _ _).trans (place_run (queued_run run_shared) hrun))
    refine ⟨_, shared 0, shared (n + 1), fs, List.range' 2 n, run_shared, rfl, rfl, hrun, hnone, fun r hr => ?_,
      List.nodup_range', List.length_range', fun r hr => ?_⟩
    · obtain rfl : r = 1 := by
        simp only [shared] at hr
        split_ifs at hr with h0 h1
        exact h1
      exact (hreaders 1 (by simp)).2
    · rw [List.mem_range'_1] at hr
      obtain ⟨k, rfl⟩ := Nat.exists_eq_add_of_le' hr.1
      have hjoins := (hreaders (k + 1) (by rw [List.mem_range'_1]; omega)).1
      have hleaves := (hreaders (k + 2) (by rw [List.mem_range'_1]; omega)).2
      exact ⟨rfl, hjoins, hleaves⟩

theorem overtaking_writers : ∃ (s s' : State (Fin 3)), s.lock.writeLock.waiters = [1, 2] ∧ place s' 2 = 0 ∧
    1 + place s' 2 ≤ place s 2 := by
  let es : List (Fin 3 × Act) := [(0, .enterWrite), (0, .resume), (1, .enterWrite), (2, .enterWrite)]
  obtain ⟨s, hrun, hp⟩ := exists_run stepEvent State.initial es
    (fun s => s.pc 0 = .writing ∧ s.lock.writeLock.waiters = [1, 2]) (by decide)
  obtain ⟨hwriting, hwaiters⟩ := of_decide_eq_true hp
  have hafter : (finishWrite s 0).lock.writeLock.waiters = [2] := by
    simp [finishWrite, Semaphore.release, hwaiters]
  have hparked : WhileParked 2 s ((0, .leave), 1) (finishWrite s 0) := by
    refine ⟨?_, by simp [hwaiters], by simp [hafter], ?_⟩
    · simp [Step, step, hwriting]
    · simp [handsOver, hwriting]
  refine ⟨s, finishWrite s 0, hwaiters, by simp [place, hafter], ?_⟩
  exact overtaking.1 (Fin 3) 2 es s (finishWrite s 0) [((0, .leave), 1)] hrun (.single hparked)

end Overtaking

end IpfsLite.RWLock
