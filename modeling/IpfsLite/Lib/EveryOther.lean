import Mathlib.Tactic

/-! Lists in which each entry is a fixed step after the one before it, and every other entry of them. -/

namespace IpfsLite.EveryOther

variable {α : Type*}

def everyOther : List α → List α
  | [] => []
  | [a] => [a]
  | a :: _ :: l => a :: everyOther l

theorem everyOther_append_singleton (l : List α) (a : α) :
    everyOther (l ++ [a]) = if l.length % 2 = 0 then everyOther l ++ [a] else everyOther l := by
  induction l using everyOther.induct with
  | case1 => rfl
  | case2 b => rfl
  | case3 b c l ih =>
    have hparity : (b :: c :: l).length % 2 = l.length % 2 := by
      simp only [List.length_cons]
      omega
    rw [List.cons_append, List.cons_append, everyOther, ih, everyOther, hparity]
    split_ifs <;> rfl

theorem everyOther_cons (a : α) (l : List α) : ∃ m, everyOther (a :: l) = a :: m := by
  cases l with
  | nil => exact ⟨[], rfl⟩
  | cons b l => exact ⟨everyOther l, rfl⟩

section Steps

variable {l : List ℚ} {d : ℚ}

def Steps (d : ℚ) (l : List ℚ) : Prop := l.IsChain fun a b => b = a + d

theorem Steps.append_singleton (h : Steps d l) {a : ℚ} (ha : ∀ b ∈ l.getLast?, a = b + d) : Steps d (l ++ [a]) := by
  refine List.IsChain.append h (.singleton a) fun b hb c hc => ?_
  obtain rfl : a = c := Option.some.inj hc
  exact ha b hb

theorem everyOther_steps (h : Steps d l) : Steps (d + d) (everyOther l) := by
  induction l using everyOther.induct with
  | case1 => exact .nil
  | case2 a => exact .singleton a
  | case3 a b l ih =>
    obtain ⟨hb, hrest⟩ := List.isChain_cons_cons.mp h
    cases l with
    | nil => exact .singleton a
    | cons c l =>
      obtain ⟨hc, hl⟩ := List.isChain_cons_cons.mp hrest
      have hsteps := ih hl
      obtain ⟨m, hm⟩ := everyOther_cons c l
      rw [everyOther]
      rw [hm] at hsteps ⊢
      refine List.isChain_cons_cons.mpr ⟨?_, hsteps⟩
      rw [hc, hb, add_assoc]

theorem everyOther_last (h : Steps d l) {a b : ℚ} (ha : a ∈ (everyOther l).getLast?) (hb : b ∈ l.getLast?) :
    b = a ∨ b = a + d := by
  induction l using everyOther.induct with
  | case1 => contradiction
  | case2 c =>
    obtain rfl := Option.some.inj ha
    obtain rfl := Option.some.inj hb
    exact .inl rfl
  | case3 c e l ih =>
    obtain ⟨he, hrest⟩ := List.isChain_cons_cons.mp h
    cases l with
    | nil =>
      obtain rfl := Option.some.inj ha
      obtain rfl := Option.some.inj hb
      exact .inr he
    | cons f l =>
      obtain ⟨m, hm⟩ := everyOther_cons f l
      apply ih (List.isChain_cons_cons.mp hrest).2
      · rw [everyOther, hm, List.getLast?_cons_cons] at ha
        rw [hm]
        exact ha
      · rw [List.getLast?_cons_cons, List.getLast?_cons_cons] at hb
        exact hb

theorem exists_mem_window (hd : 0 ≤ d) (h : Steps d l) {first last start : ℚ} (hf : first ∈ l.head?)
    (hl : last ∈ l.getLast?) (hfirst : first ≤ start) (hlast : start ≤ last) :
    ∃ a ∈ l, start ≤ a ∧ a ≤ start + d := by
  induction l generalizing first with
  | nil => contradiction
  | cons a l ih =>
    obtain rfl : a = first := Option.some.inj hf
    by_cases hstart : start ≤ a
    · exact ⟨a, List.mem_cons_self, hstart, by linarith⟩
    · cases l with
      | nil =>
        obtain rfl : a = last := Option.some.inj hl
        exact absurd hlast hstart
      | cons b l =>
        obtain ⟨hb, hrest⟩ := List.isChain_cons_cons.mp h
        by_cases hnext : start ≤ b
        · exact ⟨b, by simp, hnext, by linarith⟩
        · rw [List.getLast?_cons_cons] at hl
          obtain ⟨c, hc, hwindow⟩ := ih hrest rfl hl (le_of_not_ge hnext)
          exact ⟨c, List.mem_cons_of_mem _ hc, hwindow⟩

end Steps

end IpfsLite.EveryOther
