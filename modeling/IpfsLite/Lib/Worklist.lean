import Mathlib.Tactic
import Mathlib.Data.List.Nodup
import Mathlib.Data.List.TakeWhile
import Mathlib.Logic.Relation

/-!
Breadth-first exploration with a queue and a record of what has been visited, where visiting a
node either yields the nodes to enqueue or raises and ends the exploration. Visited nodes are
kept in the order of the visits.
-/

namespace IpfsLite

variable {α ε : Type*}

structure Worklist (α : Type*) where
  queue : List α
  visited : List α

namespace Worklist

def start (root : α) : Worklist α := ⟨[root], []⟩

def push (w : Worklist α) (cs : List α) : Worklist α := { w with queue := w.queue ++ cs }

@[simp] theorem push_visited (w : Worklist α) (cs : List α) : (w.push cs).visited = w.visited := rfl

def Edge (visit : α → Except ε (List α)) (c d : α) : Prop := ∃ cs, visit c = .ok cs ∧ d ∈ cs

def Reach (visit : α → Except ε (List α)) : α → α → Prop := Relation.ReflTransGen (Edge visit)

variable {visit : α → Except ε (List α)} {root : α}

/-- Everything found so far is reachable, and the links of all visited nodes outside `pending`
have been found. -/
structure Explores (visit : α → Except ε (List α)) (root : α) (pending : α → Prop)
    (w : Worklist α) : Prop where
  nodup : w.visited.Nodup
  root_found : root ∈ w.visited ∨ root ∈ w.queue
  sound : ∀ c, c ∈ w.visited ∨ c ∈ w.queue → Reach visit root c
  closed : ∀ c ∈ w.visited, ¬pending c → ∀ cs, visit c = .ok cs →
    ∀ d ∈ cs, d ∈ w.visited ∨ d ∈ w.queue

theorem explores_start : Explores visit root (fun _ => False) (start root) :=
  ⟨by simp [start], .inr (by simp [start]), by simp [start, Reach, Relation.ReflTransGen.refl],
    by simp [start]⟩

structure Pops (w : Worklist α) (c : α) (u : Worklist α) : Prop where
  visited : u.visited = w.visited ++ [c]
  fresh : c ∉ w.visited
  queued : c ∈ w.queue
  queue_subset : ∀ d ∈ u.queue, d ∈ w.queue
  queue_rest : ∀ d ∈ w.queue, d ∈ u.visited ∨ d ∈ u.queue

theorem Pops.nodup {w u : Worklist α} {c : α} (h : Pops w c u) (hn : w.visited.Nodup) :
    u.visited.Nodup := by
  rw [h.visited]
  refine List.nodup_append.mpr ⟨hn, by simp, ?_⟩
  intro a ha b hb hab
  rw [List.mem_singleton.mp hb] at hab
  exact h.fresh (hab ▸ ha)

theorem Explores.pop {w u : Worklist α} {c : α} (h : Explores visit root (fun _ => False) w)
    (hp : Pops w c u) : Explores visit root (· = c) u := by
  have hfound (d : α) (hd : d ∈ w.visited ∨ d ∈ w.queue) : d ∈ u.visited ∨ d ∈ u.queue := by
    rcases hd with hd | hd
    · exact .inl (by rw [hp.visited]; exact List.mem_append_left _ hd)
    · exact hp.queue_rest d hd
  refine ⟨hp.nodup h.nodup, hfound root h.root_found, ?_, ?_⟩
  · intro d hd
    rw [hp.visited, List.mem_append, List.mem_singleton] at hd
    rcases hd with (hd | rfl) | hd
    · exact h.sound d (.inl hd)
    · exact h.sound d (.inr hp.queued)
    · exact h.sound d (.inr (hp.queue_subset d hd))
  · intro d hd hdc cs hcs e he
    rw [hp.visited, List.mem_append, List.mem_singleton] at hd
    exact hfound e (h.closed d (hd.resolve_right hdc) id cs hcs e he)

theorem Explores.push {w : Worklist α} {c : α} {cs : List α} (h : Explores visit root (· = c) w)
    (hc : c ∈ w.visited) (hcs : visit c = .ok cs) :
    Explores visit root (fun _ => False) (w.push cs) := by
  refine ⟨h.nodup, ?_, ?_, ?_⟩
  · exact h.root_found.imp_right (List.mem_append_left _)
  · intro d hd
    rcases hd with hd | hd
    · exact h.sound d (.inl hd)
    · rcases List.mem_append.mp hd with hd | hd
      · exact h.sound d (.inr hd)
      · exact (h.sound c (.inl hc)).tail ⟨cs, hcs, hd⟩
  · intro d hd _ ds hds e he
    by_cases hdc : d = c
    · obtain rfl : cs = ds := by
        rw [hdc, hcs] at hds
        exact Except.ok.inj hds
      exact .inr (List.mem_append_right _ he)
    · exact (h.closed d hd hdc ds hds e he).imp_right (List.mem_append_left _)

section Run

variable [DecidableEq α]

def pop (w : Worklist α) : Option (α × Worklist α) :=
  match w.queue.dropWhile (· ∈ w.visited) with
  | [] => none
  | c :: rest => some (c, ⟨rest, w.visited ++ [c]⟩)

theorem pop_none {w : Worklist α} (h : w.pop = none) : ∀ c ∈ w.queue, c ∈ w.visited := by
  simp only [pop] at h
  split at h
  · rename_i hq
    simpa [List.dropWhile_eq_nil_iff] using hq
  · contradiction

theorem pop_some {w u : Worklist α} {c : α} (h : w.pop = some (c, u)) : Pops w c u := by
  simp only [pop] at h
  split at h
  · contradiction
  · rename_i d rest hq
    obtain ⟨rfl, rfl⟩ : d = c ∧ (⟨rest, w.visited ++ [d]⟩ : Worklist α) = u := by simpa using h
    have hsplit := List.takeWhile_append_dropWhile (p := (· ∈ w.visited)) (l := w.queue)
    rw [hq] at hsplit
    have hfresh : d ∉ w.visited := by
      have := List.head_dropWhile_not (p := (· ∈ w.visited)) (l := w.queue) (by simp [hq])
      simpa [hq] using this
    refine ⟨rfl, hfresh, ?_, ?_, ?_⟩
    · rw [← hsplit]
      simp
    · intro e he
      rw [← hsplit]
      simp [he]
    · intro e he
      rw [← hsplit] at he
      rcases List.mem_append.mp he with he | he
      · have := List.mem_takeWhile_imp he
        exact .inl (List.mem_append_left _ (by simpa using this))
      · rcases List.mem_cons.mp he with rfl | he
        · exact .inl (by simp)
        · exact .inr he

theorem Explores.complete {w : Worklist α} (h : Explores visit root (fun _ => False) w)
    (hn : w.pop = none) {c : α} (hc : Reach visit root c) : c ∈ w.visited := by
  have hall (d : α) (hd : d ∈ w.visited ∨ d ∈ w.queue) : d ∈ w.visited :=
    hd.elim id (pop_none hn d)
  induction hc with
  | refl => exact hall root h.root_found
  | tail _ he ih =>
    obtain ⟨cs, hcs, hd⟩ := he
    exact hall _ (h.closed _ ih id cs hcs _ hd)

inductive Outcome (ε : Type*)
  | finished
  | raised (e : ε)
  | starved

def run (visit : α → Except ε (List α)) : ℕ → Worklist α → List α × Outcome ε
  | 0, _ => ([], .starved)
  | n + 1, w =>
    match w.pop with
    | none => ([], .finished)
    | some (c, u) =>
      match visit c with
      | .error e => ([c], .raised e)
      | .ok cs =>
        let r := run visit n (u.push cs)
        (c :: r.1, r.2)

structure Ends (visit : α → Except ε (List α)) (root : α) (before : List α)
    (r : List α × Outcome ε) : Prop where
  nodup : (before ++ r.1).Nodup
  sound : ∀ c ∈ r.1, Reach visit root c
  complete : r.2 = .finished → ∀ c, Reach visit root c → c ∈ before ++ r.1
  raised : ∀ e, r.2 = .raised e → ∃ c, r.1.getLast? = some c ∧ visit c = .error e

theorem Explores.run {w : Worklist α} (h : Explores visit root (fun _ => False) w) (n : ℕ) :
    Ends visit root w.visited (run visit n w) := by
  induction n generalizing w with
  | zero => exact ⟨by simpa [Worklist.run] using h.nodup, by simp [Worklist.run],
      by simp [Worklist.run], by simp [Worklist.run]⟩
  | succ n ih =>
    simp only [Worklist.run]
    split
    · rename_i hn
      exact ⟨by simpa using h.nodup, by simp, fun _ c hc => by simpa using h.complete hn hc, by simp⟩
    · rename_i c u hp
      have hpop := pop_some hp
      have hu := h.pop hpop
      have hc : Reach visit root c := h.sound c (.inr hpop.queued)
      split
      · rename_i e he
        refine ⟨by simpa [← hpop.visited] using hu.nodup, by simpa using hc, by simp, ?_⟩
        intro e' he'
        obtain rfl : e = e' := by simpa using he'
        exact ⟨c, by simp, he⟩
      · rename_i cs hcs
        have hrest := ih (hu.push (by simp [hpop.visited]) hcs)
        have happ (l : List α) : w.visited ++ c :: l = (u.push cs).visited ++ l := by
          simp [hpop.visited]
        refine ⟨?_, ?_, ?_, ?_⟩
        · rw [happ]
          exact hrest.nodup
        · intro d hd
          rcases List.mem_cons.mp hd with rfl | hd
          · exact hc
          · exact hrest.sound d hd
        · intro hf d hd
          rw [happ]
          exact hrest.complete hf d hd
        · intro e he
          obtain ⟨d, hd, hde⟩ := hrest.raised e he
          exact ⟨d, by simp [List.getLast?_cons, hd], hde⟩

theorem run_ends (visit : α → Except ε (List α)) (root : α) (n : ℕ) :
    Ends visit root [] (run visit n (start root)) := explores_start.run n

theorem run_finished {n : ℕ} {w : Worklist α} (h : (run visit n w).2 = .finished) :
    ∀ c ∈ (run visit n w).1, ∃ cs, visit c = .ok cs := by
  induction n generalizing w with
  | zero => contradiction
  | succ n ih =>
    simp only [Worklist.run] at h ⊢
    split
    · simp
    · rename_i c u hp
      simp only [hp] at h
      cases hc : visit c with
      | error e => simp [hc] at h
      | ok cs =>
        simp only [hc] at h ⊢
        intro d hd
        rcases List.mem_cons.mp hd with rfl | hd
        · exact ⟨cs, hc⟩
        · exact ih h d hd

theorem run_fed {U : List α} (hU : ∀ c ∈ U, ∀ cs, visit c = .ok cs → ∀ d ∈ cs, d ∈ U) {n : ℕ}
    {w : Worklist α} (hn : w.visited.Nodup) (hv : ∀ c ∈ w.visited, c ∈ U)
    (hq : ∀ c ∈ w.queue, c ∈ U) (hlen : U.length < n + w.visited.length) :
    (run visit n w).2 ≠ .starved := by
  induction n generalizing w with
  | zero =>
    have := (List.subperm_of_subset hn hv).length_le
    omega
  | succ n ih =>
    simp only [Worklist.run]
    split
    · simp
    · rename_i c u hp
      have hpop := pop_some hp
      have hc : c ∈ U := hq c hpop.queued
      split
      · simp
      · rename_i cs hcs
        apply ih
        · exact hpop.nodup hn
        · intro d hd
          rw [push_visited, hpop.visited, List.mem_append, List.mem_singleton] at hd
          rcases hd with hd | rfl
          · exact hv d hd
          · exact hc
        · intro d hd
          rcases List.mem_append.mp hd with hd | hd
          · exact hq d (hpop.queue_subset d hd)
          · exact hU c hc cs hcs d hd
        · rw [push_visited, hpop.visited, List.length_append, List.length_singleton]
          omega

theorem run_congr {visit' : α → Except ε (List α)} {n : ℕ} {w : Worklist α}
    (h : ∀ c ∈ (run visit n w).1, visit' c = visit c) : run visit' n w = run visit n w := by
  induction n generalizing w with
  | zero => rfl
  | succ n ih =>
    simp only [run] at h ⊢
    cases hp : w.pop with
    | none => rfl
    | some next =>
      obtain ⟨c, u⟩ := next
      simp only [hp] at h ⊢
      have hc : visit' c = visit c := by
        apply h
        cases visit c <;> simp
      rw [hc]
      cases hcs : visit c with
      | error e => rfl
      | ok cs =>
        simp only [hcs] at h ⊢
        rw [ih fun d hd => h d (List.mem_cons_of_mem _ hd)]

theorem run_more {n m : ℕ} {w : Worklist α} (h : (run visit n w).2 ≠ .starved) (hm : n ≤ m) :
    run visit m w = run visit n w := by
  induction n generalizing m w with
  | zero => exact absurd rfl h
  | succ n ih =>
    obtain ⟨k, rfl⟩ : ∃ k, m = k + 1 := ⟨m - 1, by omega⟩
    simp only [run] at h ⊢
    cases hp : w.pop with
    | none => rfl
    | some next =>
      obtain ⟨c, u⟩ := next
      simp only [hp] at h ⊢
      cases hcs : visit c with
      | error e => rfl
      | ok cs =>
        simp only [hcs] at h ⊢
        rw [ih h (by omega)]

/-- What is visited from `w` on until the exploration stops, without a bound on the steps. -/
inductive Explored (visit : α → Except ε (List α)) : Worklist α → List α → Prop
  | finished {w : Worklist α} (hp : w.pop = none) : Explored visit w []
  | raised {w u : Worklist α} {c : α} {e : ε} (hp : w.pop = some (c, u)) (hc : visit c = .error e) :
      Explored visit w [c]
  | visited {w u : Worklist α} {c : α} {cs l : List α} (hp : w.pop = some (c, u))
      (hc : visit c = .ok cs) (hl : Explored visit (u.push cs) l) : Explored visit w (c :: l)

theorem run_explored {n : ℕ} {w : Worklist α} (h : (run visit n w).2 ≠ .starved) :
    Explored visit w (run visit n w).1 := by
  induction n generalizing w with
  | zero => exact absurd rfl h
  | succ n ih =>
    cases hp : w.pop with
    | none =>
      simp only [Worklist.run, hp]
      exact .finished hp
    | some next =>
      obtain ⟨c, u⟩ := next
      cases hc : visit c with
      | error e =>
        simp only [Worklist.run, hp, hc]
        exact .raised hp hc
      | ok cs =>
        simp only [Worklist.run, hp, hc] at h ⊢
        exact .visited hp hc (ih h)

theorem pop_start (root : α) : (start root).pop = some (root, ⟨[], [root]⟩) := by
  simp [start, pop]

theorem run_head (visit : α → Except ε (List α)) (root : α) {n : ℕ} (hn : 0 < n) :
    (run visit n (start root)).1.head? = some root := by
  cases n with
  | zero => contradiction
  | succ n =>
    simp only [run, pop_start]
    cases visit root <;> rfl

def takeThrough (p : α → Bool) : List α → List α
  | [] => []
  | c :: cs => if p c then [c] else c :: takeThrough p cs

omit [DecidableEq α] in
theorem mem_takeThrough {p : α → Bool} {c : α} {l : List α} :
    c ∈ takeThrough p l ↔ ∃ l₁ l₂, l = l₁ ++ c :: l₂ ∧ ∀ d ∈ l₁, p d = false := by
  induction l with
  | nil => simp [takeThrough]
  | cons a l ih =>
    constructor
    · intro h
      by_cases ha : p a
      · obtain rfl : c = a := by simpa [takeThrough, ha] using h
        exact ⟨[], l, rfl, by simp⟩
      · rw [takeThrough, if_neg ha, List.mem_cons] at h
        rcases h with rfl | h
        · exact ⟨[], l, rfl, by simp⟩
        · obtain ⟨l₁, l₂, rfl, hl⟩ := ih.mp h
          exact ⟨a :: l₁, l₂, rfl, by simpa [ha] using hl⟩
    · rintro ⟨l₁, l₂, hl, hp⟩
      cases l₁ with
      | nil =>
        obtain ⟨rfl, -⟩ : a = c ∧ l = l₂ := by simpa using hl
        by_cases ha : p a <;> simp [takeThrough, ha]
      | cons b l₁ =>
        obtain ⟨rfl, rfl⟩ : a = b ∧ l = l₁ ++ c :: l₂ := by simpa using hl
        rw [takeThrough, if_neg (by simp [hp a (by simp)]), List.mem_cons]
        exact .inr (ih.mpr ⟨l₁, l₂, rfl, fun d hd => hp d (by simp [hd])⟩)

def raises (visit : α → Except ε (List α)) (c : α) : Bool :=
  match visit c with
  | .error _ => true
  | .ok _ => false

theorem run_truncated {links : α → List α} (hv : ∀ c cs, visit c = .ok cs → cs = links c) (n : ℕ)
    (w : Worklist α) : (run visit n w).1 =
      takeThrough (raises visit) (run (ε := ε) (fun c => .ok (links c)) n w).1 := by
  induction n generalizing w with
  | zero => rfl
  | succ n ih =>
    simp only [Worklist.run]
    split
    · rfl
    · rename_i c u hp
      cases hc : visit c with
      | error e => simp [takeThrough, raises, hc]
      | ok cs =>
        obtain rfl := hv c cs hc
        simp [takeThrough, raises, hc, ih]

end Run

end Worklist

end IpfsLite
