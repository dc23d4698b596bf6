import Mathlib.Tactic

namespace IpfsLite

variable {α : Type*} {P Q : α → Prop} {m n : ℕ} {a : α} {history : List α}

def Recent (P : α → Prop) (n : ℕ) (history : List α) : Prop :=
  n ≤ history.length ∧ ∀ a ∈ history.take n, P a

instance [DecidablePred P] : Decidable (Recent P n history) := inferInstanceAs (Decidable (_ ∧ _))

namespace Recent

theorem zero (P : α → Prop) (history : List α) : Recent P 0 history := by
  constructor
  · exact Nat.zero_le _
  · simp

theorem le (h : Recent P n history) (hmn : m ≤ n) : Recent P m history := by
  refine ⟨hmn.trans h.1, fun a ha => h.2 a ?_⟩
  exact (List.take_prefix_take_left hmn).subset ha

theorem mono (h : Recent P n history) (hPQ : ∀ a, P a → Q a) : Recent Q n history :=
  ⟨h.1, fun a ha => hPQ a (h.2 a ha)⟩

theorem succ (h : Recent P n history) (ha : P a) : Recent P (n + 1) (a :: history) := by
  refine ⟨Nat.succ_le_succ h.1, ?_⟩
  rw [List.take_succ_cons, List.forall_mem_cons]
  exact ⟨ha, h.2⟩

theorem cons (h : Recent P n history) (ha : P a) : Recent P n (a :: history) :=
  (h.succ ha).le n.le_succ

end Recent

end IpfsLite
