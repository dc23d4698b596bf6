import IpfsLite.RWLock

namespace IpfsLite.RWLock

open Trio Runs

variable {τ : Type*}

def Pc.counted : Pc → Bool
  | .entrySemaphore | .reading | .exitLock => true
  | _ => false

def Pc.usesCountLock : Pc → Bool
  | .entryLock | .entrySemaphore | .exitLock => true
  | _ => false

@[simp] theorem goto_lock [DecidableEq τ] (s : State τ) (t : τ) (p : Pc) (l : RWLock τ) : (s.goto t p l).lock = l := rfl

@[simp] theorem goto_pc [DecidableEq τ] (s : State τ) (t u : τ) (p : Pc) (l : RWLock τ) :
    (s.goto t p l).pc u = if u = t then p else s.pc u := by
  simp [State.goto, Function.update_apply]

/-- `_read_count` is the number of readers past their increment, and `lost` more. -/
def Counts (s : State τ) (lost : ℕ) : Prop :=
  ∃ R : Finset τ, (∀ u, u ∈ R ↔ (s.pc u).counted = true) ∧ s.lock.readCount = R.card + lost

theorem counts_initial : Counts (State.initial : State τ) 0 :=
  ⟨∅, by simp [State.initial, Pc.counted], by simp [State.initial, initial]⟩

variable [DecidableEq τ]

theorem Counts.goto {s : State τ} {lost lost' : ℕ} (h : Counts s lost) (t : τ) (p : Pc) (l : RWLock τ)
    (hl : l.readCount + (s.pc t).counted.toNat + lost = s.lock.readCount + p.counted.toNat + lost') :
    Counts (s.goto t p l) lost' := by
  obtain ⟨R, hR, hc⟩ := h
  refine ⟨if p.counted then insert t R else R.erase t, fun u => ?_, ?_⟩
  · by_cases hu : u = t
    · subst hu
      cases hp : p.counted <;> simp [hp]
    · cases hp : p.counted <;> simp [hu, hR]
  · have hm := hR t
    rw [goto_lock]
    cases hp : p.counted <;> cases hq : (s.pc t).counted <;>
      simp only [hp, hq, Bool.false_eq_true, iff_false, iff_true, Bool.toNat_false,
        Bool.toNat_true, if_true, if_false] at hl hm ⊢
    · rw [Finset.erase_eq_of_notMem hm]
      omega
    · have hd := Finset.card_erase_add_one hm
      omega
    · have hd := Finset.card_insert_of_notMem hm
      omega
    · rw [Finset.insert_eq_of_mem hm]
      omega

def loses (a : Act) : ℕ := if CancelsEntry a ∨ CancelsExit a then 1 else 0

inductive Segment (s : State τ) (t : τ) : Act → State τ → Prop
  | enterRead (hp : s.pc t = .outside) : Segment s t .enterRead (enterRead s t)
  | awaitSemaphore (hp : s.pc t = .entryLock) (hw : t ∉ s.lock.readCountLock.waiters)
      (hc : s.lock.readCount = 0) : Segment s t .resume (awaitSemaphore s t)
  | joinReaders (hp : s.pc t = .entryLock) (hw : t ∉ s.lock.readCountLock.waiters)
      (hc : s.lock.readCount ≠ 0) : Segment s t .resume (joinReaders s t)
  | refuseSemaphore (hp : s.pc t = .entryLock) (hw : t ∉ s.lock.readCountLock.waiters)
      (hc : s.lock.readCount = 0) : Segment s t (.cancelCall .entrySemaphore) (refuseSemaphore s t)
  | startReading (hp : s.pc t = .entrySemaphore) (hw : t ∉ s.lock.writeLock.waiters) :
      Segment s t .resume (startReading s t)
  | abandonSemaphore (hp : s.pc t = .entrySemaphore) (hw : t ∈ s.lock.writeLock.waiters) :
      Segment s t (.cancelParked .entrySemaphore) (abandonSemaphore s t)
  | leaveBody (hp : s.pc t = .reading) : Segment s t .leave (leaveBody s t)
  | cancelExit (hp : s.pc t = .reading) : Segment s t (.cancelCall .exitLock) (s.goto t .outside s.lock)
  | finishRead (hp : s.pc t = .exitLock) (hw : t ∉ s.lock.readCountLock.waiters) :
      Segment s t .resume (finishRead s t)
  | abandonEntry (hp : s.pc t = .entryLock) (hw : t ∈ s.lock.readCountLock.waiters) :
      Segment s t (.cancelParked .entryLock) (abandonCountLock s t)
  | abandonExit (hp : s.pc t = .exitLock) (hw : t ∈ s.lock.readCountLock.waiters) :
      Segment s t (.cancelParked .exitLock) (abandonCountLock s t)
  | enterWrite (hp : s.pc t = .outside) : Segment s t .enterWrite (enterWrite s t)
  | startWriting (hp : s.pc t = .writeSemaphore) (hw : t ∉ s.lock.writeLock.waiters) :
      Segment s t .resume (startWriting s t)
  | abandonWrite (hp : s.pc t = .writeSemaphore) (hw : t ∈ s.lock.writeLock.waiters) :
      Segment s t (.cancelParked .writeSemaphore) (abandonWrite s t)
  | finishWrite (hp : s.pc t = .writing) : Segment s t .leave (finishWrite s t)
  | refuse {w : Await} (hp : s.pc t = .outside) (hw : w = .entryLock ∨ w = .writeSemaphore) :
      Segment s t (.cancelCall w) s

theorem resume_cases {s s' : State τ} {t : τ} (h : step s t .resume = some s') :
    Segment s t .resume s' := by
  cases hp : s.pc t <;> simp only [step, hp, reduceCtorEq, Option.ite_none_left_eq_some] at h
  case entryLock =>
    obtain ⟨hw, h⟩ := h
    split_ifs at h with hc <;> obtain rfl := Option.some.inj h
    · exact .awaitSemaphore hp hw (by omega)
    · exact .joinReaders hp hw (by omega)
  case entrySemaphore => obtain ⟨hw, h⟩ := h; cases h; exact .startReading hp hw
  case exitLock => obtain ⟨hw, h⟩ := h; cases h; exact .finishRead hp hw
  case writeSemaphore => obtain ⟨hw, h⟩ := h; cases h; exact .startWriting hp hw

theorem step_cases {s s' : State τ} {t : τ} {a : Act} (h : step s t a = some s') :
    Segment s t a s' := by
  cases a with
  | resume => exact resume_cases h
  | enterRead =>
    obtain ⟨hp, rfl⟩ : s.pc t = .outside ∧ enterRead s t = s' := by simpa [step] using h
    exact .enterRead hp
  | enterWrite =>
    obtain ⟨hp, rfl⟩ : s.pc t = .outside ∧ enterWrite s t = s' := by simpa [step] using h
    exact .enterWrite hp
  | leave =>
    cases hp : s.pc t <;> simp only [step, hp, reduceCtorEq, Option.some.injEq] at h
    case reading => subst h; exact .leaveBody hp
    case writing => subst h; exact .finishWrite hp
  | cancelCall w =>
    cases w <;> simp only [step, Option.ite_none_right_eq_some, Option.some.injEq] at h
    case entryLock => obtain ⟨hp, rfl⟩ := h; exact .refuse hp (.inl rfl)
    case writeSemaphore => obtain ⟨hp, rfl⟩ := h; exact .refuse hp (.inr rfl)
    case exitLock => obtain ⟨hp, rfl⟩ := h; exact .cancelExit hp
    case entrySemaphore =>
      obtain ⟨⟨hp, hw, hc⟩, rfl⟩ := h
      exact .refuseSemaphore hp hw (by omega)
  | cancelParked w =>
    cases w <;> simp only [step, Option.ite_none_right_eq_some, Option.some.injEq] at h <;>
      obtain ⟨⟨hp, hw⟩, rfl⟩ := h
    · exact .abandonEntry hp hw
    · exact .abandonSemaphore hp hw
    · exact .abandonExit hp hw
    · exact .abandonWrite hp hw

theorem segment_pc_other {s s' : State τ} {t u : τ} {a : Act} (h : Segment s t a s') (hu : u ≠ t) :
    s'.pc u = s.pc u := by
  cases h with
  | refuse => rfl
  | _ => exact Function.update_of_ne hu _ _

inductive Moves : Act → Pc → Pc → Prop
  | enterRead : Moves .enterRead .outside .entryLock
  | await : Moves .resume .entryLock .entrySemaphore
  | join : Moves .resume .entryLock .reading
  | start : Moves .resume .entrySemaphore .reading
  | leave : Moves .leave .reading .exitLock
  | finish : Moves .resume .exitLock .outside
  | enterWrite : Moves .enterWrite .outside .writeSemaphore
  | startWriting : Moves .resume .writeSemaphore .writing
  | finishWrite : Moves .leave .writing .outside

theorem segment_moves {s s' : State τ} {t : τ} {a : Act} (h : Segment s t a s')
    (ha : ∀ w, a ≠ .cancelCall w ∧ a ≠ .cancelParked w) : Moves a (s.pc t) (s'.pc t) := by
  have hgoto (p : Pc) (l : RWLock τ) : (s.goto t p l).pc t = p := Function.update_self ..
  cases h with
  | enterRead hp => rw [hp, enterRead, hgoto]; exact .enterRead
  | awaitSemaphore hp => rw [hp, awaitSemaphore, hgoto]; exact .await
  | joinReaders hp => rw [hp, joinReaders, hgoto]; exact .join
  | startReading hp => rw [hp, startReading, hgoto]; exact .start
  | leaveBody hp => rw [hp, leaveBody, hgoto]; exact .leave
  | finishRead hp => rw [hp, finishRead, hgoto]; exact .finish
  | enterWrite hp => rw [hp, enterWrite, hgoto]; exact .enterWrite
  | startWriting hp => rw [hp, startWriting, hgoto]; exact .startWriting
  | finishWrite hp => rw [hp, finishWrite, hgoto]; exact .finishWrite
  | refuseSemaphore | cancelExit | refuse => exact absurd rfl (ha _).1
  | abandonSemaphore | abandonEntry | abandonExit | abandonWrite => exact absurd rfl (ha _).2

theorem Counts.step {s s' : State τ} {t : τ} {a : Act} {lost : ℕ} (h : Counts s lost)
    (hs : step s t a = some s') : Counts s' (lost + loses a) := by
  cases step_cases hs with
  | refuse hp hw => rcases hw with rfl | rfl <;> simpa [loses, CancelsEntry, CancelsExit] using h
  | _ hp => 
    apply h.goto
    simp [hp, Pc.counted, loses, CancelsEntry, CancelsExit, countReader, releaseCountLock]
    try omega

inductive Holder (τ : Type*)
  | nobody
  | readers
  | writer (t : τ)

structure Exclusive (s : State τ) (holder : Holder τ) : Prop where
  counts : ∃ lost, Counts s lost
  lock : s.lock.readCountLock.Tracks {t | (s.pc t).usesCountLock = true}
  owner : ∀ t, s.pc t = .entrySemaphore → s.lock.readCountLock.owner = some t
  first : ∀ t, s.pc t = .entrySemaphore → s.lock.readCount = 1
  permit : s.lock.writeLock.OnePermit (holder ≠ .nobody)
  queued : ∀ t ∈ s.lock.writeLock.waiters, s.pc t = .entrySemaphore ∨ s.pc t = .writeSemaphore
  writer : ∀ t, (s.pc t = .writing ∨ s.pc t = .writeSemaphore ∧ t ∉ s.lock.writeLock.waiters) ↔
    holder = .writer t
  readers : (0 < s.lock.readCount ∧
    ∀ t, s.pc t = .entrySemaphore → t ∉ s.lock.writeLock.waiters) ↔ holder = .readers

omit [DecidableEq τ] in
theorem exclusive_initial : Exclusive (State.initial : State τ) .nobody := by
  constructor
  case counts => exact ⟨0, counts_initial⟩
  case lock => simpa [State.initial, initial, Pc.usesCountLock] using Lock.tracks_unlocked
  case permit => simpa [State.initial, initial] using Semaphore.onePermit_initial
  all_goals simp [State.initial, initial, Semaphore.initial]

omit [DecidableEq τ] in
theorem Exclusive.counted_pos {s : State τ} {holder : Holder τ} (h : Exclusive s holder) {t : τ}
    (ht : (s.pc t).counted = true) : 0 < s.lock.readCount := by
  obtain ⟨lost, R, hR, hc⟩ := h.counts
  have := Finset.card_pos.mpr ⟨t, (hR t).mpr ht⟩
  omega

omit [DecidableEq τ] in
theorem Exclusive.first_alone {s : State τ} {holder : Holder τ} (h : Exclusive s holder) {t u : τ}
    (ht : s.pc t = .entrySemaphore) (hu : (s.pc u).counted = true) : u = t := by
  obtain ⟨lost, R, hR, hc⟩ := h.counts
  have h1 := h.first t ht
  have htR : t ∈ R := (hR t).mpr (by simp [ht, Pc.counted])
  have huR := (hR u).mpr hu
  have hcard : R.card ≤ 1 := by omega
  exact Finset.card_le_one.mp hcard u huR t htR

omit [DecidableEq τ] in
theorem Exclusive.writing_holds {s : State τ} {holder : Holder τ} (h : Exclusive s holder) {t : τ}
    (ht : s.pc t = .writing) : holder = .writer t := (h.writer t).mp (.inl ht)

omit [DecidableEq τ] in
theorem Exclusive.inside_holds {s : State τ} {holder : Holder τ} (h : Exclusive s holder) {t : τ}
    (ht : s.pc t = .reading ∨ s.pc t = .exitLock) : holder = .readers := by
  have hc : (s.pc t).counted = true := by rcases ht with ht | ht <;> simp [ht, Pc.counted]
  refine h.readers.mp ⟨h.counted_pos hc, fun u hu => ?_⟩
  rw [← h.first_alone hu hc] at hu
  rcases ht with ht | ht <;> simp [ht] at hu

omit [DecidableEq τ] in
theorem Exclusive.not_queued {s : State τ} {holder : Holder τ} (h : Exclusive s holder) {t : τ}
    (ht : s.pc t ≠ .entrySemaphore ∧ s.pc t ≠ .writeSemaphore) : t ∉ s.lock.writeLock.waiters := by
  intro hmem
  rcases h.queued t hmem with hp | hp
  · exact ht.1 hp
  · exact ht.2 hp

omit [DecidableEq τ] in
theorem Exclusive.no_entry {s : State τ} {holder : Holder τ} (h : Exclusive s holder) {t : τ}
    (ht : s.lock.readCountLock.owner = some t) (hp : s.pc t ≠ .entrySemaphore) (u : τ) :
    s.pc u ≠ .entrySemaphore := by
  intro hu
  have := h.owner u hu
  rw [ht, Option.some.injEq] at this
  exact hp (this ▸ hu)

theorem uses_goto (s : State τ) (t : τ) (p : Pc) (l : RWLock τ) :
    {u | ((s.goto t p l).pc u).usesCountLock = true} =
      if p.usesCountLock then insert t {u | (s.pc u).usesCountLock = true}
      else {u | (s.pc u).usesCountLock = true} \ {t} := by
  ext u
  by_cases hu : u = t
  · subst hu
    cases hp : p.usesCountLock <;> simp [hp]
  · cases hp : p.usesCountLock <;> simp [hu]

theorem Exclusive.goto {s : State τ} {holder : Holder τ} (h : Exclusive s holder) {t : τ} {p : Pc}
    {l : RWLock τ} (hsem : l.writeLock = s.lock.writeLock)
    (hold : s.pc t ≠ .entrySemaphore ∧ s.pc t ≠ .writeSemaphore ∧ s.pc t ≠ .writing)
    (hnew : p ≠ .entrySemaphore ∧ p ≠ .writeSemaphore ∧ p ≠ .writing)
    (hcounts : ∃ lost, Counts (s.goto t p l) lost)
    (hlock : l.readCountLock.Tracks {u | ((s.goto t p l).pc u).usesCountLock = true})
    (hfirst : ∀ u, s.pc u = .entrySemaphore →
      l.readCountLock.owner = some u ∧ l.readCount = s.lock.readCount)
    (hpos : 0 < l.readCount ↔ 0 < s.lock.readCount) : Exclusive (s.goto t p l) holder := by
  have hentry (u : τ) : (s.goto t p l).pc u = .entrySemaphore ↔ s.pc u = .entrySemaphore := by
    by_cases hu : u = t <;> simp [hu, hold, hnew]
  have hwrite (u : τ) : (s.goto t p l).pc u = .writeSemaphore ↔ s.pc u = .writeSemaphore := by
    by_cases hu : u = t <;> simp [hu, hold, hnew]
  have hwriting (u : τ) : (s.goto t p l).pc u = .writing ↔ s.pc u = .writing := by
    by_cases hu : u = t <;> simp [hu, hold, hnew]
  constructor
  case counts => exact hcounts
  case lock => exact hlock
  case owner => intro u hu; exact (hfirst u ((hentry u).mp hu)).1
  case first =>
    intro u hu
    rw [hentry] at hu
    exact (hfirst u hu).2.trans (h.first u hu)
  case permit =>
    rw [goto_lock, hsem]
    exact h.permit
  case queued =>
    intro u hu
    rw [goto_lock, hsem] at hu
    rw [hentry, hwrite]
    exact h.queued u hu
  case writer =>
    intro u
    rw [hwriting, hwrite, goto_lock, hsem]
    exact h.writer u
  case readers =>
    simp only [hentry]
    rw [goto_lock, hpos, hsem]
    exact h.readers

end IpfsLite.RWLock
