import IpfsLite.RWLockInvariant

namespace IpfsLite.RWLock

open Trio Runs

variable {τ : Type*} [DecidableEq τ]

theorem exclusive_enterRead {s : State τ} {holder : Holder τ} (h : Exclusive s holder) {t : τ}
    (hp : s.pc t = .outside) : Exclusive (enterRead s t) holder := by
  obtain ⟨lost, hc⟩ := h.counts
  refine h.goto rfl (by simp [hp]) (by simp) ?_ ?_ ?_ ?_
  · exact ⟨lost, hc.goto _ _ _ (by simp [hp, Pc.counted])⟩
  · rw [uses_goto]
    exact h.lock.acquire (by simp [hp, Pc.usesCountLock])
  · intro u hu
    exact ⟨Lock.acquire_owner_of_some (h.owner u hu), rfl⟩
  · rfl

theorem exclusive_leaveBody {s : State τ} {holder : Holder τ} (h : Exclusive s holder) {t : τ}
    (hp : s.pc t = .reading) : Exclusive (leaveBody s t) holder := by
  obtain ⟨lost, hc⟩ := h.counts
  refine h.goto rfl (by simp [hp]) (by simp) ?_ ?_ ?_ ?_
  · exact ⟨lost, hc.goto _ _ _ (by simp [hp, Pc.counted])⟩
  · rw [uses_goto]
    exact h.lock.acquire (by simp [hp, Pc.usesCountLock])
  · intro u hu
    exact ⟨Lock.acquire_owner_of_some (h.owner u hu), rfl⟩
  · rfl

theorem exclusive_cancelExit {s : State τ} {holder : Holder τ} (h : Exclusive s holder) {t : τ}
    (hp : s.pc t = .reading) : Exclusive (s.goto t .outside s.lock) holder := by
  obtain ⟨lost, hc⟩ := h.counts
  refine h.goto rfl (by simp [hp]) (by simp) ?_ ?_ ?_ ?_
  · exact ⟨lost + 1, hc.goto _ _ _ (by simp [hp, Pc.counted]; omega)⟩
  · rw [uses_goto]
    simpa [hp, Pc.usesCountLock] using h.lock
  · intro u hu
    exact ⟨h.owner u hu, rfl⟩
  · rfl

theorem exclusive_joinReaders {s : State τ} {holder : Holder τ} (h : Exclusive s holder) {t : τ}
    (hp : s.pc t = .entryLock) (hw : t ∉ s.lock.readCountLock.waiters)
    (hn : s.lock.readCount ≠ 0) : Exclusive (joinReaders s t) holder := by
  obtain ⟨lost, hc⟩ := h.counts
  have ho := h.lock.owns (by simp [hp, Pc.usesCountLock]) hw
  have hpos : 0 < s.lock.readCount := by
    obtain ⟨R, -, he⟩ := hc
    omega
  refine h.goto rfl (by simp [hp]) (by simp) ?_ ?_ ?_ ?_
  · exact ⟨lost, hc.goto _ _ _ (by simp [hp, Pc.counted, releaseCountLock, countReader])⟩
  · rw [uses_goto]
    exact h.lock.release ho
  · intro u hu
    exact absurd hu (h.no_entry ho (by simp [hp]) u)
  · simp only [releaseCountLock, countReader]
    omega

theorem exclusive_abandonCountLock {s : State τ} {holder : Holder τ} (h : Exclusive s holder) {t : τ}
    (hp : s.pc t = .entryLock ∨ s.pc t = .exitLock) (hw : t ∈ s.lock.readCountLock.waiters) :
    Exclusive (abandonCountLock s t) holder := by
  obtain ⟨lost, hc⟩ := h.counts
  refine h.goto rfl (by rcases hp with hp | hp <;> simp [hp]) (by simp) ?_ ?_ ?_ ?_
  · rcases hp with hp | hp
    · exact ⟨lost, hc.goto _ _ _ (by simp [hp, Pc.counted])⟩
    · exact ⟨lost + 1, hc.goto _ _ _ (by simp [hp, Pc.counted]; omega)⟩
  · rw [uses_goto]
    exact h.lock.abandon hw
  · intro u hu
    exact ⟨h.owner u hu, rfl⟩
  · rfl

theorem exclusive_startReading {s : State τ} {holder : Holder τ} (h : Exclusive s holder) {t : τ}
    (hp : s.pc t = .entrySemaphore) (hw : t ∉ s.lock.writeLock.waiters) :
    Exclusive (startReading s t) holder := by
  obtain ⟨lost, hc⟩ := h.counts
  have hone := h.first t hp
  have halone (u : τ) (hu : s.pc u = .entrySemaphore) : u = t :=
    h.first_alone hp (by simp [hu, Pc.counted])
  have hr : holder = .readers := by
    refine h.readers.mp ⟨by omega, fun u hu => ?_⟩
    rw [halone u hu]
    exact hw
  have hnone (u : τ) : (startReading s t).pc u ≠ .entrySemaphore := by
    by_cases hu : u = t
    · simp [startReading, hu]
    · simp only [startReading, goto_pc, hu, if_false]
      exact fun hc => hu (halone u hc)
  have hsem : (startReading s t).lock.writeLock = s.lock.writeLock := rfl
  constructor
  case counts => exact ⟨lost, hc.goto _ _ _ (by simp [hp, Pc.counted, releaseCountLock])⟩
  case lock =>
    rw [startReading, uses_goto]
    exact h.lock.release (h.owner t hp)
  case owner => intro u hu; exact absurd hu (hnone u)
  case first => intro u hu; exact absurd hu (hnone u)
  case permit => exact h.permit
  case queued =>
    intro u hu
    rw [hsem] at hu
    have hut : u ≠ t := fun hc => hw (hc ▸ hu)
    simpa [startReading, hut] using h.queued u hu
  case writer =>
    intro u
    rw [← h.writer u]
    by_cases hu : u = t <;> simp [startReading, releaseCountLock, hu, hp]
  case readers =>
    simp only [hr, iff_true]
    refine ⟨?_, fun u hu => absurd hu (hnone u)⟩
    simp [startReading, releaseCountLock, hone]

def nextHolder (s : State τ) : Holder τ :=
  match s.lock.writeLock.waiters with
  | [] => .nobody
  | w :: _ => if s.pc w = .entrySemaphore then .readers else .writer w

omit [DecidableEq τ] in
theorem onePermit_release {s : State τ} {holder : Holder τ} (h : Exclusive s holder)
    (hh : holder ≠ .nobody) :
    s.lock.writeLock.release.OnePermit (nextHolder s ≠ .nobody) := by
  have hv := h.permit.out hh
  have hnd := h.permit.nodup
  cases hw : s.lock.writeLock.waiters with
  | nil =>
    simp only [Semaphore.release, nextHolder, hw]
    constructor <;> simp [hv]
  | cons w ws =>
    rw [hw] at hnd
    have hne : nextHolder s ≠ .nobody := by
      simp only [nextHolder, hw]
      split_ifs <;> simp
    simp only [Semaphore.release, hw]
    exact ⟨hnd.of_cons, fun _ => hv, fun hc => absurd hne hc⟩

omit [DecidableEq τ] in
theorem nextHolder_eq_writer (s : State τ) (u : τ) :
    nextHolder s = .writer u ↔
      s.lock.writeLock.waiters.head? = some u ∧ s.pc u ≠ .entrySemaphore := by
  cases hw : s.lock.writeLock.waiters with
  | nil => simp [nextHolder, hw]
  | cons w ws =>
    simp only [nextHolder, hw, List.head?_cons, Option.some.injEq]
    split_ifs with hp
    · simp only [false_iff, not_and, not_not]
      rintro rfl
      exact hp
    · simp only [Holder.writer.injEq]
      constructor
      · rintro rfl
        exact ⟨rfl, hp⟩
      · exact And.left

omit [DecidableEq τ] in
theorem nextHolder_eq_readers (s : State τ) :
    nextHolder s = .readers ↔
      ∃ w, s.lock.writeLock.waiters.head? = some w ∧ s.pc w = .entrySemaphore := by
  cases hw : s.lock.writeLock.waiters with
  | nil => simp [nextHolder, hw]
  | cons w ws => by_cases hp : s.pc w = .entrySemaphore <;> simp [nextHolder, hw, hp]

theorem exclusive_handOver {s : State τ} {holder : Holder τ} (h : Exclusive s holder) {t : τ}
    {l : RWLock τ} (hh : holder ≠ .nobody) (hsem : l.writeLock = s.lock.writeLock.release)
    (hout : t ∉ s.lock.writeLock.waiters) (hwriting : ∀ u, s.pc u = .writing → u = t)
    (hqueue : ∀ u, s.pc u = .writeSemaphore → u ∈ s.lock.writeLock.waiters)
    (hentry : ∀ u, s.pc u = .entrySemaphore →
      u ∈ s.lock.writeLock.waiters ∧ l.readCountLock.owner = some u ∧ l.readCount = 1)
    (hpos : 0 < l.readCount ↔ ∃ u, s.pc u = .entrySemaphore)
    (hcounts : ∃ lost, Counts (s.goto t .outside l) lost)
    (hlock : l.readCountLock.Tracks {u | ((s.goto t .outside l).pc u).usesCountLock = true}) :
    Exclusive (s.goto t .outside l) (nextHolder s) := by
  have hrel := Semaphore.mem_release_waiters h.permit.nodup
  have hnt (u : τ) (hu : u ∈ s.lock.writeLock.waiters) : u ≠ t := fun hc => hout (hc ▸ hu)
  have hpc (u : τ) {p : Pc} (hp : p ≠ .outside) (hu : (s.goto t .outside l).pc u = p) :
      s.pc u = p := by
    rw [goto_pc] at hu
    split_ifs at hu
    · exact absurd hu.symm hp
    · exact hu
  constructor
  case counts => exact hcounts
  case lock => exact hlock
  case owner => intro u hu; exact (hentry u (hpc u (by simp) hu)).2.1
  case first => intro u hu; exact (hentry u (hpc u (by simp) hu)).2.2
  case permit =>
    rw [goto_lock, hsem]
    exact onePermit_release h hh
  case queued =>
    intro u hu
    rw [goto_lock, hsem, hrel] at hu
    rw [goto_pc, if_neg (hnt u hu.1)]
    exact h.queued u hu.1
  case writer =>
    intro u
    rw [goto_lock, hsem, hrel, nextHolder_eq_writer, goto_pc]
    by_cases hu : u = t
    · subst hu
      simp only [if_true, reduceCtorEq, false_and, or_self, false_iff, not_and]
      intro hc
      exact absurd rfl (hnt u (List.mem_of_mem_head? hc))
    · rw [if_neg hu]
      constructor
      · rintro (hc | ⟨hc, hn⟩)
        · exact absurd (hwriting u hc) hu
        · exact ⟨by_contra fun hhd => hn ⟨hqueue u hc, hhd⟩, by simp [hc]⟩
      · rintro ⟨hhd, hne⟩
        have := (h.queued u (List.mem_of_mem_head? hhd)).resolve_left hne
        exact .inr ⟨this, fun hc => hc.2 hhd⟩
  case readers =>
    rw [nextHolder_eq_readers, goto_lock, hsem, hpos]
    constructor
    · rintro ⟨⟨u, hu⟩, hall⟩
      have hmem := (hentry u hu).1
      have hnot := hall u (by rw [goto_pc, if_neg (hnt u hmem), hu])
      rw [hrel] at hnot
      exact ⟨u, by_contra fun hhd => hnot ⟨hmem, hhd⟩, hu⟩
    · rintro ⟨w, hhd, hw⟩
      refine ⟨⟨w, hw⟩, fun u hu hmem => ?_⟩
      have hu := hpc u (by simp) hu
      have := h.first_alone hw (u := u) (by simp [hu, Pc.counted])
      rw [hrel, this] at hmem
      exact hmem.2 hhd

theorem exclusive_finishWrite {s : State τ} {holder : Holder τ} (h : Exclusive s holder) {t : τ}
    (hp : s.pc t = .writing) : Exclusive (finishWrite s t) (nextHolder s) := by
  obtain ⟨lost, hc⟩ := h.counts
  have hh : holder = .writer t := (h.writer t).mp (.inl hp)
  have hsame (u : τ) (hu : s.pc u = .writing ∨ s.pc u = .writeSemaphore ∧
      u ∉ s.lock.writeLock.waiters) : u = t := by
    have := (h.writer u).mp hu
    rw [hh, Holder.writer.injEq] at this
    exact this.symm
  have hnr : ¬(0 < s.lock.readCount ∧
      ∀ u, s.pc u = .entrySemaphore → u ∉ s.lock.writeLock.waiters) := by
    rw [h.readers, hh]
    simp
  have hentry (u : τ) (hu : s.pc u = .entrySemaphore) : u ∈ s.lock.writeLock.waiters := by
    by_contra hc
    refine hnr ⟨h.counted_pos (t := u) (by simp [hu, Pc.counted]), fun v hv => ?_⟩
    rwa [h.first_alone hu (u := v) (by simp [hv, Pc.counted])]
  refine exclusive_handOver h (by simp [hh]) rfl ?_ (fun u hu => hsame u (.inl hu)) ?_ ?_ ?_ ?_ ?_
  · exact h.not_queued (by simp [hp])
  · intro u hu
    by_contra hc
    rw [hsame u (.inr ⟨hu, hc⟩), hp] at hu
    simp at hu
  · exact fun u hu => ⟨hentry u hu, h.owner u hu, h.first u hu⟩
  · constructor
    · intro hpos
      by_contra hno
      push Not at hno
      exact hnr ⟨hpos, fun u hu => absurd hu (hno u)⟩
    · rintro ⟨u, hu⟩
      exact h.counted_pos (t := u) (by simp [hu, Pc.counted])
  · exact ⟨lost, hc.goto _ _ _ (by simp [hp, Pc.counted])⟩
  · rw [uses_goto]
    simpa [hp, Pc.usesCountLock] using h.lock

theorem exclusive_finishRead {s : State τ} {holder : Holder τ} (h : Exclusive s holder) {t : τ}
    (hp : s.pc t = .exitLock) (hw : t ∉ s.lock.readCountLock.waiters) :
    ∃ holder', Exclusive (finishRead s t) holder' := by
  obtain ⟨lost, hc⟩ := h.counts
  have ho := h.lock.owns (by simp [hp, Pc.usesCountLock]) hw
  have hno := h.no_entry ho (by simp [hp])
  have hpos := h.counted_pos (t := t) (by simp [hp, Pc.counted])
  have hh : holder = .readers := h.readers.mp ⟨hpos, fun u hu => absurd hu (hno u)⟩
  have hnw (u : τ) : ¬(s.pc u = .writing ∨ s.pc u = .writeSemaphore ∧
      u ∉ s.lock.writeLock.waiters) := by
    rw [h.writer u, hh]
    simp
  have hcounts : ∃ lost, Counts (finishRead s t) lost :=
    ⟨lost, hc.goto _ _ _ (by simp [hp, Pc.counted, releaseCountLock])⟩
  have hlock : (releaseCountLock s.lock).readCountLock.Tracks
      {u | ((finishRead s t).pc u).usesCountLock = true} := by
    rw [finishRead, uses_goto]
    exact h.lock.release ho
  by_cases hz : s.lock.readCount - 1 = 0
  · refine ⟨nextHolder s, exclusive_handOver h (by simp [hh]) ?_ ?_ ?_ ?_ ?_ ?_ hcounts hlock⟩
    · simp [releaseCountLock, hz]
    · exact h.not_queued (by simp [hp])
    · exact fun u hu => absurd (.inl hu) (hnw u)
    · exact fun u hu => by_contra fun hc => hnw u (.inr ⟨hu, hc⟩)
    · exact fun u hu => absurd hu (hno u)
    · simp [releaseCountLock, hz, hno]
  · refine ⟨holder, h.goto ?_ (by simp [hp]) (by simp) hcounts hlock ?_ ?_⟩
    · simp [releaseCountLock, hz]
    · exact fun u hu => absurd hu (hno u)
    · simp only [releaseCountLock]
      omega

theorem Exclusive.park_queued {s : State τ} {holder : Holder τ} (h : Exclusive s holder)
    (hh : holder ≠ .nobody) (t : τ) {p : Pc} (hp : p = .entrySemaphore ∨ p = .writeSemaphore) :
    ∀ u ∈ (s.lock.writeLock.acquire t).waiters, (if u = t then p else s.pc u) = .entrySemaphore ∨
      (if u = t then p else s.pc u) = .writeSemaphore := by
  intro u hu
  rw [h.permit.acquire_held hh] at hu
  by_cases hut : u = t
  · simpa [hut] using hp
  · rw [if_neg hut]
    exact h.queued u (by simpa [hut] using hu)

theorem exclusive_awaitSemaphore {s : State τ} {holder : Holder τ} (h : Exclusive s holder) {t : τ}
    (hp : s.pc t = .entryLock) (hw : t ∉ s.lock.readCountLock.waiters) (hz : s.lock.readCount = 0) :
    ∃ holder', Exclusive (awaitSemaphore s t) holder' := by
  obtain ⟨lost, hc⟩ := h.counts
  have ho := h.lock.owns (by simp [hp, Pc.usesCountLock]) hw
  have hno := h.no_entry ho (by simp [hp])
  have hnr : holder ≠ .readers := fun hc => by have := h.readers.mpr hc; omega
  have hpc (u : τ) : (awaitSemaphore s t).pc u = if u = t then .entrySemaphore else s.pc u := by
    simp [awaitSemaphore]
  have hentry (u : τ) : (awaitSemaphore s t).pc u = .entrySemaphore ↔ u = t := by
    rw [hpc]
    by_cases hu : u = t <;> simp [hu, hno]
  have hcounts : ∃ lost, Counts (awaitSemaphore s t) lost :=
    ⟨lost, hc.goto _ _ _ (by simp [hp, Pc.counted, countReader])⟩
  have hlock : (awaitSemaphore s t).lock.readCountLock.Tracks
      {u | ((awaitSemaphore s t).pc u).usesCountLock = true} := by
    have hmem : t ∈ {u | (s.pc u).usesCountLock = true} := by simp [hp, Pc.usesCountLock]
    rw [awaitSemaphore, uses_goto, if_pos (by rfl), Set.insert_eq_of_mem hmem]
    exact h.lock
  have howner (u : τ) (hu : (awaitSemaphore s t).pc u = .entrySemaphore) :
      (awaitSemaphore s t).lock.readCountLock.owner = some u := by
    rw [(hentry u).mp hu]
    exact ho
  have hfirst (u : τ) (hu : (awaitSemaphore s t).pc u = .entrySemaphore) :
      (awaitSemaphore s t).lock.readCount = 1 := by
    simp [awaitSemaphore, countReader, hz]
  have hsem : (awaitSemaphore s t).lock.writeLock = s.lock.writeLock.acquire t := rfl
  cases holder with
  | readers => exact absurd rfl hnr
  | nobody =>
    have hfree := h.permit.free (by simp)
    have hacq := h.permit.acquire_free (by simp) t
    refine ⟨.readers, hcounts, hlock, howner, hfirst, ?_, ?_, ?_, ?_⟩
    · rw [hsem, hacq]
      constructor <;> simp
    · rw [hsem, hacq]
      simp
    · intro u
      have := h.writer u
      rw [hfree.2] at this
      rw [hpc, hsem, hacq]
      by_cases hu : u = t
      · simp [hu]
      · simpa [hu] using this
    · rw [hsem, hacq]
      simp [awaitSemaphore, countReader, hz]
  | writer v =>
    have hacq := h.permit.acquire_held (by simp) t
    refine ⟨.writer v, hcounts, hlock, howner, hfirst, ?_, ?_, ?_, ?_⟩
    · exact h.permit.park (by simp) (h.not_queued (by simp [hp]))
    · intro u
      rw [hpc]
      exact h.park_queued (by simp) t (.inl rfl) u
    · intro u
      rw [hpc, hsem, hacq, ← h.writer u]
      by_cases hu : u = t <;> simp [hu, hp]
    · rw [hsem, hacq]
      simp only [reduceCtorEq, iff_false, not_and, not_forall]
      exact fun _ => ⟨t, (hentry t).mpr rfl, by simp⟩

theorem exclusive_enterWrite {s : State τ} {holder : Holder τ} (h : Exclusive s holder) {t : τ}
    (hp : s.pc t = .outside) : ∃ holder', Exclusive (enterWrite s t) holder' := by
  obtain ⟨lost, hc⟩ := h.counts
  have hpc (u : τ) : (enterWrite s t).pc u = if u = t then .writeSemaphore else s.pc u := by
    simp [enterWrite]
  have hentry (u : τ) : (enterWrite s t).pc u = .entrySemaphore ↔ s.pc u = .entrySemaphore := by
    rw [hpc]
    by_cases hu : u = t <;> simp [hu, hp]
  have hcounts : ∃ lost, Counts (enterWrite s t) lost :=
    ⟨lost, hc.goto _ _ _ (by simp [hp, Pc.counted])⟩
  have hlock : (enterWrite s t).lock.readCountLock.Tracks
      {u | ((enterWrite s t).pc u).usesCountLock = true} := by
    rw [enterWrite, uses_goto]
    simpa [hp, Pc.usesCountLock] using h.lock
  have howner (u : τ) (hu : (enterWrite s t).pc u = .entrySemaphore) :
      (enterWrite s t).lock.readCountLock.owner = some u := h.owner u ((hentry u).mp hu)
  have hfirst (u : τ) (hu : (enterWrite s t).pc u = .entrySemaphore) :
      (enterWrite s t).lock.readCount = 1 := h.first u ((hentry u).mp hu)
  have hsem : (enterWrite s t).lock.writeLock = s.lock.writeLock.acquire t := rfl
  have hcount : (enterWrite s t).lock.readCount = s.lock.readCount := rfl
  by_cases hh : holder = .nobody
  · subst hh
    have hfree := h.permit.free (by simp)
    have hacq := h.permit.acquire_free (by simp) t
    refine ⟨.writer t, hcounts, hlock, howner, hfirst, ?_, ?_, ?_, ?_⟩
    · rw [hsem, hacq]
      constructor <;> simp
    · rw [hsem, hacq]
      simp
    · intro u
      have := h.writer u
      rw [hpc, hsem, hacq]
      by_cases hu : u = t
      · simp [hu]
      · rw [hfree.2] at this
        simpa [hu, Ne.symm hu] using this
    · have hr := h.readers
      rw [hfree.2] at hr
      rw [hcount, hsem, hacq]
      simpa using hr
  · have hacq := h.permit.acquire_held hh t
    refine ⟨holder, hcounts, hlock, howner, hfirst, ?_, ?_, ?_, ?_⟩
    · exact h.permit.park hh (h.not_queued (by simp [hp]))
    · intro u
      rw [hpc]
      exact h.park_queued hh t (.inr rfl) u
    · intro u
      rw [hpc, hsem, hacq, ← h.writer u]
      by_cases hu : u = t <;> simp [hu, hp]
    · rw [hcount, hsem, hacq, ← h.readers]
      simp only [hentry]
      apply and_congr_right
      intro _
      apply forall₂_congr
      intro u hu
      have hut : u ≠ t := by rintro rfl; simp [hp] at hu
      simp [hut]

theorem exclusive_startWriting {s : State τ} {holder : Holder τ} (h : Exclusive s holder) {t : τ}
    (hp : s.pc t = .writeSemaphore) (hw : t ∉ s.lock.writeLock.waiters) :
    Exclusive (startWriting s t) holder := by
  obtain ⟨lost, hc⟩ := h.counts
  have hpc (u : τ) : (startWriting s t).pc u = if u = t then .writing else s.pc u := by
    simp [startWriting]
  have hentry (u : τ) : (startWriting s t).pc u = .entrySemaphore ↔ s.pc u = .entrySemaphore := by
    rw [hpc]
    by_cases hu : u = t <;> simp [hu, hp]
  have hl : (startWriting s t).lock = s.lock := rfl
  constructor
  case counts => exact ⟨lost, hc.goto _ _ _ (by simp [hp, Pc.counted])⟩
  case lock =>
    rw [startWriting, uses_goto]
    simpa [hp, Pc.usesCountLock] using h.lock
  case owner => intro u hu; exact h.owner u ((hentry u).mp hu)
  case first => intro u hu; exact h.first u ((hentry u).mp hu)
  case permit => exact h.permit
  case queued =>
    intro u hu
    rw [hl] at hu
    have hut : u ≠ t := fun hc => hw (hc ▸ hu)
    rw [hpc, if_neg hut]
    exact h.queued u hu
  case writer =>
    intro u
    rw [hpc, hl, ← h.writer u]
    by_cases hu : u = t <;> simp [hu, hp, hw]
  case readers =>
    simp only [hentry]
    exact h.readers

theorem exclusive_abandonWrite {s : State τ} {holder : Holder τ} (h : Exclusive s holder) {t : τ}
    (hp : s.pc t = .writeSemaphore) (hw : t ∈ s.lock.writeLock.waiters) :
    Exclusive (abandonWrite s t) holder := by
  obtain ⟨lost, hc⟩ := h.counts
  have hpc (u : τ) : (abandonWrite s t).pc u = if u = t then .outside else s.pc u := by
    simp [abandonWrite]
  have hentry (u : τ) : (abandonWrite s t).pc u = .entrySemaphore ↔ s.pc u = .entrySemaphore := by
    rw [hpc]
    by_cases hu : u = t <;> simp [hu, hp]
  have hmem (u : τ) : u ∈ (abandonWrite s t).lock.writeLock.waiters ↔
      u ≠ t ∧ u ∈ s.lock.writeLock.waiters := by
    simp [abandonWrite, Semaphore.abandon, h.permit.nodup.mem_erase_iff]
  have hcount : (abandonWrite s t).lock.readCount = s.lock.readCount := rfl
  constructor
  case counts => exact ⟨lost, hc.goto _ _ _ (by simp [hp, Pc.counted])⟩
  case lock =>
    rw [abandonWrite, uses_goto]
    simpa [hp, Pc.usesCountLock] using h.lock
  case owner => intro u hu; exact h.owner u ((hentry u).mp hu)
  case first => intro u hu; exact h.first u ((hentry u).mp hu)
  case permit =>
    refine ⟨h.permit.nodup.erase t, h.permit.out, fun hc => ?_⟩
    rw [(h.permit.free hc).2] at hw
    simp at hw
  case queued =>
    intro u hu
    rw [hmem] at hu
    rw [hpc, if_neg hu.1]
    exact h.queued u hu.2
  case writer =>
    intro u
    rw [hpc, hmem, ← h.writer u]
    by_cases hu : u = t <;> simp [hu, hp, hw]
  case readers =>
    rw [← h.readers, hcount]
    simp only [hentry, hmem]
    apply and_congr_right
    intro _
    apply forall₂_congr
    intro u hu
    have hut : u ≠ t := by rintro rfl; simp [hp] at hu
    simp [hut]

theorem exclusive_step {s s' : State τ} {holder : Holder τ} {t : τ} {a : Act}
    (h : Exclusive s holder) (hs : step s t a = some s') (ha : ¬CancelsEntry a) :
    ∃ holder', Exclusive s' holder' := by
  cases step_cases hs with
  | enterRead hp => exact ⟨_, exclusive_enterRead h hp⟩
  | awaitSemaphore hp hw hc => exact exclusive_awaitSemaphore h hp hw hc
  | joinReaders hp hw hc => exact ⟨_, exclusive_joinReaders h hp hw hc⟩
  | refuseSemaphore => exact absurd (.inl rfl) ha
  | startReading hp hw => exact ⟨_, exclusive_startReading h hp hw⟩
  | abandonSemaphore => exact absurd (.inr rfl) ha
  | leaveBody hp => exact ⟨_, exclusive_leaveBody h hp⟩
  | cancelExit hp => exact ⟨_, exclusive_cancelExit h hp⟩
  | finishRead hp hw => exact exclusive_finishRead h hp hw
  | abandonEntry hp hw => exact ⟨_, exclusive_abandonCountLock h (.inl hp) hw⟩
  | abandonExit hp hw => exact ⟨_, exclusive_abandonCountLock h (.inr hp) hw⟩
  | enterWrite hp => exact exclusive_enterWrite h hp
  | startWriting hp hw => exact ⟨_, exclusive_startWriting h hp hw⟩
  | abandonWrite hp hw => exact ⟨_, exclusive_abandonWrite h hp hw⟩
  | finishWrite hp => exact ⟨_, exclusive_finishWrite h hp⟩
  | refuse => exact ⟨_, h⟩

end IpfsLite.RWLock
