import Mathlib.Tactic
import Mathlib.Data.List.Nodup

namespace IpfsLite

variable {α κ : Type*} [DecidableEq κ] {key : α → κ} {a : α} {l : List α}

def firsts (key : α → κ) : List α → List α
  | [] => []
  | a :: l => a :: (firsts key l).filter fun b => key b ≠ key a

theorem firsts_sublist (key : α → κ) (l : List α) : (firsts key l).Sublist l := by
  induction l with
  | nil => exact .slnil
  | cons a l ih => exact (List.filter_sublist.trans ih).cons_cons a

theorem nodup_map_firsts (key : α → κ) (l : List α) : ((firsts key l).map key).Nodup := by
  induction l with
  | nil => exact List.nodup_nil
  | cons a l ih =>
    rw [firsts, List.map_cons, List.nodup_cons]
    constructor
    · simp
    · exact ih.sublist (List.filter_sublist.map key)

theorem firsts_concat (key : α → κ) (l : List α) (a : α) :
    firsts key (l ++ [a]) = if key a ∈ l.map key then firsts key l else firsts key l ++ [a] := by
  induction l with
  | nil => rfl
  | cons b l ih =>
    rw [List.cons_append, firsts, ih, firsts, List.map_cons]
    simp only [List.mem_cons]
    by_cases hb : key a = key b
    · have hmem : key a = key b ∨ key a ∈ l.map key := .inl hb
      rw [if_pos hmem]
      split_ifs
      · rfl
      · simp [hb]
    · simp only [hb, false_or]
      split_ifs
      · rfl
      · simp [hb]

theorem firsts_prefix (key : α → κ) (l m : List α) : firsts key l <+: firsts key (l ++ m) := by
  induction m using List.reverseRecOn with
  | nil => rw [List.append_nil]
  | append_singleton m a ih =>
    rw [← List.append_assoc, firsts_concat]
    split_ifs
    · exact ih
    · exact ih.trans (List.prefix_append _ _)

theorem firsts_pairwise (key : α → κ) {R : α → α → Prop} (h : l.Pairwise R) : (firsts key l).Pairwise R :=
  h.sublist (firsts_sublist key l)

theorem firsts_idxOf (key : α → κ) (l : List α) :
    (firsts key l).Pairwise fun a b => (l.map key).idxOf (key a) < (l.map key).idxOf (key b) := by
  induction l with
  | nil => exact .nil
  | cons c l ih =>
    have hlater (a : α) (ha : decide (key a ≠ key c) = true) :
        ((c :: l).map key).idxOf (key a) = (l.map key).idxOf (key a) + 1 :=
      List.idxOf_cons_ne _ (of_decide_eq_true ha).symm
    rw [firsts, List.pairwise_cons, List.pairwise_filter]
    refine ⟨fun b hb => ?_, ih.imp fun {a b} hab ha hb => ?_⟩
    · rw [hlater b (List.mem_filter.mp hb).2, List.map_cons, List.idxOf_cons_self]
      exact Nat.succ_pos _
    · rw [hlater a ha, hlater b hb]
      exact Nat.succ_lt_succ hab

theorem pairwise_iff_dropWhile {p : α → Bool} :
    (l.Pairwise fun a b => p b = true → p a = true) ↔ ∀ a ∈ l.dropWhile p, p a = false := by
  induction l with
  | nil => simp
  | cons c l ih =>
    by_cases hc : p c = true
    · simp [hc, ih]
    · have hnone : (∀ a ∈ l, p a = false) → l.Pairwise fun a b => p b = true → p a = true := by
        intro h
        exact List.pairwise_of_forall_mem_list fun a _ b hb hpb => by simp [h b hb] at hpb
      simpa [hc] using hnone

theorem dropWhile_eq_filter {p : α → Bool} (h : ∀ a ∈ l.dropWhile p, p a = false) :
    l.dropWhile p = l.filter fun a => !p a := by
  have hsplit : l.filter (fun a => !p a) =
      (l.takeWhile p).filter (fun a => !p a) ++ (l.dropWhile p).filter fun a => !p a := by
    rw [← List.filter_append, List.takeWhile_append_dropWhile]
  have hfront : (l.takeWhile p).filter (fun a => !p a) = [] := by
    rw [List.filter_eq_nil_iff]
    intro a ha
    simp [List.all_eq_true.mp List.all_takeWhile a ha]
  have hrest : (l.dropWhile p).filter (fun a => !p a) = l.dropWhile p := by
    rw [List.filter_eq_self]
    intro a ha
    simp [h a ha]
  rw [hsplit, hfront, hrest, List.nil_append]

theorem take_filter {p : α → Bool} (h : l.Pairwise fun a b => p b = true → p a = true) (n : ℕ) :
    (l.filter p).take n = (l.take n).filter p := by
  induction l generalizing n with
  | nil => simp
  | cons a l ih =>
    obtain ⟨hfirst, hrest⟩ := List.pairwise_cons.mp h
    cases n with
    | zero => simp
    | succ n =>
      by_cases ha : p a = true
      · rw [List.filter_cons_of_pos ha, List.take_succ_cons, List.take_succ_cons, List.filter_cons_of_pos ha,
          ih hrest]
      · have hnone (m : List α) (hm : ∀ b ∈ m, b ∈ l) : m.filter p = [] := by
          rw [List.filter_eq_nil_iff]
          exact fun b hb hpb => ha (hfirst b (hm b hb) hpb)
        rw [List.filter_cons_of_neg ha, List.take_succ_cons, List.filter_cons_of_neg ha, hnone l fun _ hb => hb,
          hnone _ fun _ hb => List.mem_of_mem_take hb, List.take_nil]

theorem mem_take_of_filter_ne {k : κ} {n : ℕ} (hn : (l.map key).Nodup)
    (ha : a ∈ (l.filter fun b => key b ≠ k).take n) : a ∈ l.take (n + 1) := by
  induction l generalizing n with
  | nil => simp at ha
  | cons b l ih =>
    obtain ⟨hfresh, hn⟩ := List.nodup_cons.mp hn
    by_cases hb : key b = k
    · have hall : (l.filter fun b => key b ≠ k) = l := by
        rw [List.filter_eq_self]
        intro c hc
        have hne : key c ≠ k := fun h => hfresh (List.mem_map.mpr ⟨c, hc, h.trans hb.symm⟩)
        simpa using hne
      rw [List.filter_cons_of_neg (by simpa using hb), hall] at ha
      exact List.mem_cons_of_mem _ ha
    · rw [List.filter_cons_of_pos (by simpa using hb)] at ha
      cases n with
      | zero => simp at ha
      | succ n =>
        rw [List.take_succ_cons, List.mem_cons] at ha ⊢
        exact ha.imp_right (ih hn)

end IpfsLite
