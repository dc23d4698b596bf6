import Mathlib.Tactic
import Mathlib.Data.Set.Insert

/-!
`trio.Lock` and `trio.Semaphore` as values. The parked tasks are served in order, and a release
hands the lock or the permit to the first of them.
-/

namespace IpfsLite.Trio

variable {τ : Type*}

structure Lock (τ : Type*) where
  owner : Option τ
  waiters : List τ
  deriving DecidableEq

namespace Lock

def unlocked : Lock τ := ⟨none, []⟩

def acquire (l : Lock τ) (t : τ) : Lock τ :=
  match l.owner with
  | none => { l with owner := some t }
  | some _ => { l with waiters := l.waiters ++ [t] }

def release (l : Lock τ) : Lock τ :=
  match l.waiters with
  | [] => { l with owner := none }
  | w :: ws => ⟨some w, ws⟩

def abandon [DecidableEq τ] (l : Lock τ) (t : τ) : Lock τ := { l with waiters := l.waiters.erase t }

/-- `U` is the set of tasks that own the lock or are parked on it. -/
structure Tracks (l : Lock τ) (U : Set τ) : Prop where
  mem : ∀ t, t ∈ U ↔ l.owner = some t ∨ t ∈ l.waiters
  nodup : l.waiters.Nodup
  owner : ∀ t ∈ l.waiters, l.owner ≠ some t
  free : l.owner = none → l.waiters = []

theorem tracks_unlocked : (unlocked : Lock τ).Tracks ∅ := by
  constructor <;> simp [unlocked]

theorem Tracks.owns {l : Lock τ} {U : Set τ} (h : l.Tracks U) {t : τ} (ht : t ∈ U)
    (hw : t ∉ l.waiters) : l.owner = some t := ((h.mem t).mp ht).resolve_right hw

theorem Tracks.owner_mem {l : Lock τ} {U : Set τ} (h : l.Tracks U) {t : τ}
    (ht : l.owner = some t) : t ∈ U := (h.mem t).mpr (.inl ht)

theorem acquire_owner_of_some {l : Lock τ} {t u : τ} (h : l.owner = some u) :
    (l.acquire t).owner = some u := by simp [acquire, h]

theorem Tracks.acquire {l : Lock τ} {U : Set τ} (h : l.Tracks U) {t : τ} (ht : t ∉ U) :
    (l.acquire t).Tracks (insert t U) := by
  have hn : l.owner ≠ some t ∧ t ∉ l.waiters := by simpa [h.mem t] using ht
  cases ho : l.owner with
  | none =>
    have hw := h.free ho
    simp only [Lock.acquire, ho]
    constructor
    · intro u; simp [h.mem u, ho, hw, eq_comm]
    · exact h.nodup
    · simp [hw]
    · simp
  | some o =>
    simp only [Lock.acquire, ho]
    constructor
    · intro u
      simp only [Set.mem_insert_iff, h.mem u, ho, Option.some.injEq, List.mem_append,
        List.mem_singleton]
      tauto
    · exact h.nodup.append (List.nodup_singleton t) (by simpa using hn.2)
    · intro u hu
      rcases List.mem_append.mp hu with hu | hu
      · rw [← ho]; exact h.owner u hu
      · rw [List.mem_singleton.mp hu, ← ho]; exact hn.1
    · simp

theorem Tracks.release {l : Lock τ} {U : Set τ} (h : l.Tracks U) {t : τ} (ht : l.owner = some t) :
    l.release.Tracks (U \ {t}) := by
  have ho : t ∉ l.waiters := fun hc => h.owner t hc ht
  cases hw : l.waiters with
  | nil =>
    simp only [Lock.release, hw]
    constructor
    · intro u
      simp only [Set.mem_sdiff, h.mem u, ht, hw, Option.some.injEq, Set.mem_singleton_iff]
      simp [eq_comm]
    all_goals simp
  | cons w ws =>
    have hnd := h.nodup
    rw [hw] at ho hnd
    simp only [Lock.release, hw]
    constructor
    · intro u
      simp only [Set.mem_sdiff, h.mem u, ht, hw, Option.some.injEq, Set.mem_singleton_iff,
        List.mem_cons]
      constructor
      · rintro ⟨rfl | rfl | hu, hne⟩
        · exact absurd rfl hne
        · exact .inl rfl
        · exact .inr hu
      · rintro (rfl | hu)
        · exact ⟨.inr (.inl rfl), fun hc => ho (by simp [hc])⟩
        · exact ⟨.inr (.inr hu), fun hc => ho (by simp [← hc, hu])⟩
    · exact hnd.of_cons
    · intro u hu hc
      rw [Option.some.injEq] at hc
      exact (List.nodup_cons.mp hnd).1 (hc ▸ hu)
    · simp

theorem Tracks.abandon [DecidableEq τ] {l : Lock τ} {U : Set τ} (h : l.Tracks U) {t : τ}
    (ht : t ∈ l.waiters) : (l.abandon t).Tracks (U \ {t}) := by
  constructor
  · intro u
    simp only [Lock.abandon, Set.mem_sdiff, h.mem u, h.nodup.mem_erase_iff, Set.mem_singleton_iff]
    constructor
    · rintro ⟨hu | hu, hne⟩
      · exact .inl hu
      · exact .inr ⟨hne, hu⟩
    · rintro (hu | hu)
      · exact ⟨.inl hu, fun hc => h.owner t ht (hc ▸ hu)⟩
      · exact ⟨.inr hu.2, hu.1⟩
  · exact h.nodup.erase t
  · intro u hu; exact h.owner u (List.mem_of_mem_erase hu)
  · intro ho; simp [Lock.abandon, h.free ho]

theorem Tracks.eq_unlocked {l : Lock τ} (h : l.Tracks ∅) : l = unlocked := by
  have ho : l.owner = none := by
    by_contra hc
    obtain ⟨t, ht⟩ := Option.ne_none_iff_exists'.mp hc
    exact h.owner_mem ht
  have hw := h.free ho
  cases l
  simp_all [unlocked]

end Lock

structure Semaphore (τ : Type*) where
  value : ℕ
  waiters : List τ
  deriving DecidableEq

namespace Semaphore

def initial (n : ℕ) : Semaphore τ := ⟨n, []⟩

def acquire (s : Semaphore τ) (t : τ) : Semaphore τ :=
  if 0 < s.value then { s with value := s.value - 1 } else { s with waiters := s.waiters ++ [t] }

def release (s : Semaphore τ) : Semaphore τ :=
  match s.waiters with
  | [] => { s with value := s.value + 1 }
  | _ :: ws => { s with waiters := ws }

def abandon [DecidableEq τ] (s : Semaphore τ) (t : τ) : Semaphore τ :=
  { s with waiters := s.waiters.erase t }

/-- A semaphore created with one permit, which is out exactly when `held`. -/
structure OnePermit (s : Semaphore τ) (held : Prop) : Prop where
  nodup : s.waiters.Nodup
  out : held → s.value = 0
  free : ¬held → s.value = 1 ∧ s.waiters = []

theorem onePermit_initial : (initial 1 : Semaphore τ).OnePermit False := by
  constructor <;> simp [initial]

theorem OnePermit.acquire_free {s : Semaphore τ} {held : Prop} (h : s.OnePermit held)
    (hf : ¬held) (t : τ) : s.acquire t = ⟨0, []⟩ := by
  obtain ⟨hv, hw⟩ := h.free hf
  simp [acquire, hv, hw]

theorem OnePermit.acquire_held {s : Semaphore τ} {held : Prop} (h : s.OnePermit held)
    (hh : held) (t : τ) : s.acquire t = ⟨0, s.waiters ++ [t]⟩ := by
  simp [acquire, h.out hh]

theorem OnePermit.park {s : Semaphore τ} {held : Prop} (h : s.OnePermit held) (hh : held) {t : τ}
    (ht : t ∉ s.waiters) : (s.acquire t).OnePermit held := by
  rw [h.acquire_held hh]
  refine ⟨?_, fun _ => rfl, fun hf => absurd hh hf⟩
  exact h.nodup.append (List.nodup_singleton t) (by simpa using ht)

theorem mem_release_waiters {s : Semaphore τ} (hnd : s.waiters.Nodup) (u : τ) :
    u ∈ s.release.waiters ↔ u ∈ s.waiters ∧ s.waiters.head? ≠ some u := by
  cases hw : s.waiters with
  | nil => simp [Semaphore.release, hw]
  | cons w ws =>
    rw [hw, List.nodup_cons] at hnd
    simp only [Semaphore.release, hw, List.mem_cons, List.head?_cons, ne_eq, Option.some.injEq]
    constructor
    · intro hu
      exact ⟨.inr hu, fun hc => hnd.1 (hc ▸ hu)⟩
    · rintro ⟨rfl | hu, hne⟩
      · exact absurd rfl hne
      · exact hu

theorem OnePermit.eq_initial {s : Semaphore τ} {held : Prop} (h : s.OnePermit held)
    (hf : ¬held) : s = initial 1 := by
  obtain ⟨hv, hw⟩ := h.free hf
  cases s
  simp_all [initial]

end Semaphore

end IpfsLite.Trio
