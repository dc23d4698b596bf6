import IpfsLite.RWLockExclusion

namespace IpfsLite.RWLock

open Trio Runs

variable {τ : Type*} [DecidableEq τ]

theorem exclusive_run {s : State τ} {es : List (τ × Act)} (h : Run Step State.initial es s)
    (hes : ∀ e ∈ es, ¬CancelsEntry e.2) : ∃ holder, Exclusive s holder := by
  refine (h.restrict hes).invariant (P := fun s => ∃ holder, Exclusive s holder) ?_
    ⟨.nobody, exclusive_initial⟩
  rintro u e v ⟨holder, hu⟩ ⟨hs, he⟩
  exact exclusive_step hu hs he

def lossesOf (es : List (τ × Act)) : ℕ := (es.map (fun e => loses e.2)).sum

theorem counts_run {s : State τ} {es : List (τ × Act)} (h : Run Step State.initial es s) :
    Counts s (lossesOf es) := by
  refine h.history (P := fun es s => Counts s (lossesOf es)) ?_ (by simpa [lossesOf] using counts_initial)
  intro es u e v hu hs
  simpa [lossesOf] using hu.step hs

def MutualExclusion (s : State τ) : Prop :=
  (∀ t u, s.pc t = .writing → s.pc u = .writing → t = u) ∧
    ∀ t u, s.pc t = .writing → s.pc u ≠ .reading

theorem mutual_exclusion {s : State τ} {es : List (τ × Act)} (h : Run Step State.initial es s)
    (hes : ∀ e ∈ es, ¬CancelsEntry e.2) : MutualExclusion s := by
  obtain ⟨holder, he⟩ := exclusive_run h hes
  constructor
  · intro t u ht hu
    have := (he.writing_holds ht).symm.trans (he.writing_holds hu)
    simpa using this
  · intro t u ht hu
    have := (he.writing_holds ht).symm.trans (he.inside_holds (.inl hu))
    simp at this

def stepEvent (s : State τ) (e : τ × Act) : Option (State τ) := step s e.1 e.2

theorem mutual_exclusion_writer_and_waiting_reader :
    ∃ s : State (Fin 3), s.pc 0 = .writing ∧ s.pc 1 = .entrySemaphore ∧ MutualExclusion s := by
  let es : List (Fin 3 × Act) := [(0, .enterWrite), (0, .resume), (1, .enterRead), (1, .resume)]
  obtain ⟨s, hrun, hp⟩ := exists_run stepEvent State.initial es
    (fun s => s.pc 0 = .writing ∧ s.pc 1 = .entrySemaphore) (by decide)
  obtain ⟨h0, h1⟩ := of_decide_eq_true hp
  exact ⟨s, h0, h1, mutual_exclusion hrun (by decide)⟩

/-- Task 1 is cancelled at the semaphore behind the writer, task 2 then joins as a second reader. -/
def cancelledEntry : List (Fin 3 × Act) :=
  [(0, .enterWrite), (0, .resume), (1, .enterRead), (1, .resume), (1, .cancelParked .entrySemaphore),
    (2, .enterRead), (2, .resume)]

theorem mutual_exclusion_fails : ¬∀ (es : List (Fin 3 × Act)) (s : State (Fin 3)),
    Run Step State.initial es s → MutualExclusion s := by
  intro hall
  obtain ⟨s, hrun, hp⟩ := exists_run stepEvent State.initial cancelledEntry
    (fun s => s.pc 0 = .writing ∧ s.pc 2 = .reading) (by decide)
  obtain ⟨h0, h2⟩ := of_decide_eq_true hp
  exact (hall _ _ hrun).2 0 2 h0 h2

def Quiet (s : State τ) : Prop := ∀ t, s.pc t = .outside

theorem quiet_released_iff {s : State τ} {es : List (τ × Act)} (h : Run Step State.initial es s)
    (hq : Quiet s) :
    s.lock = initial ↔ ∀ e ∈ es, ¬(CancelsEntry e.2 ∨ CancelsExit e.2) := by
  obtain ⟨R, hR, hc⟩ := counts_run h
  have hR0 : R = ∅ := by
    rw [Finset.eq_empty_iff_forall_notMem]
    intro t ht
    have := (hR t).mp ht
    simp [hq t, Pc.counted] at this
  have hcount : s.lock.readCount = lossesOf es := by simpa [hR0] using hc
  constructor
  · intro hl e he hlost
    have hzero : lossesOf es = 0 := by
      rw [hl] at hcount
      simpa [initial] using hcount.symm
    have := List.sum_eq_zero_iff.mp hzero _ (List.mem_map_of_mem he)
    simp [loses, hlost] at this
  · intro hes
    obtain ⟨holder, hex⟩ := exclusive_run h (fun e he hc => hes e he (.inl hc))
    have hzero : lossesOf es = 0 := by
      refine List.sum_eq_zero_iff.mpr fun n hn => ?_
      obtain ⟨e, he, rfl⟩ := List.mem_map.mp hn
      simp [loses, hes e he]
    have hlock : s.lock.readCountLock = .unlocked := by
      refine Lock.Tracks.eq_unlocked ?_
      simpa [hq _, Pc.usesCountLock] using hex.lock
    have hfree : holder = .nobody := by
      cases holder with
      | nobody => rfl
      | readers =>
        have := (hex.readers.mpr rfl).1
        omega
      | writer t =>
        have := (hex.writer t).mpr rfl
        simp [hq t] at this
    have hsem := hex.permit.eq_initial (by simp [hfree])
    obtain ⟨⟨w, n, l⟩, pc⟩ := s
    simp_all [initial]

theorem quiet_released_after_one_reader :
    ∃ (es : List (Unit × Act)) (s : State (Unit)), es ≠ [] ∧ Run Step State.initial es s ∧
      s.lock = initial := by
  let es : List (Unit × Act) :=
    [((), .enterRead), ((), .resume), ((), .resume), ((), .leave), ((), .resume)]
  obtain ⟨s, hrun, hp⟩ := exists_run stepEvent State.initial es
    (fun s => ∀ t, s.pc t = .outside) (by decide)
  have hq := of_decide_eq_true hp
  exact ⟨es, s, by simp [es], hrun, (quiet_released_iff hrun hq).mpr (by decide)⟩

def cancelledExit : List (Unit × Act) :=
  [((), .enterRead), ((), .resume), ((), .resume), ((), .cancelCall .exitLock)]

theorem quiet_released_fails : ¬∀ (es : List (Unit × Act)) (s : State (Unit)),
    Run Step State.initial es s → Quiet s → s.lock = initial := by
  intro hall
  obtain ⟨s, hrun, hp⟩ := exists_run stepEvent State.initial cancelledExit
    (fun s => (∀ t, s.pc t = .outside) ∧ s.lock.readCount = 1 ∧ s.lock.writeLock.value = 0) (by decide)
  obtain ⟨hq, hc, -⟩ := of_decide_eq_true hp
  have := hall _ _ hrun hq
  simp [this, initial] at hc

end IpfsLite.RWLock
