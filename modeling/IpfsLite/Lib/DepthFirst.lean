import Mathlib.Tactic
import Mathlib.Data.List.Nodup

/-!
Depth-first listing of links, with a record of the nodes seen and a bound on the depth. The visit of
a node whose links cannot be had fails, and the node that led to it goes on to no other link.
-/

namespace IpfsLite.DepthFirst

variable {α : Type*}

structure Listing (α : Type*) where
  seen : List α
  listed : List α
  ok : Bool

def each (visit : List α → α → Listing α) : List α → List α → Listing α
  | seen, [] => ⟨seen, [], true⟩
  | seen, c :: cs =>
    let v := visit seen c
    if v.ok then
      let w := each visit v.seen cs
      ⟨w.seen, v.listed ++ w.listed, w.ok⟩
    else v

def visit [DecidableEq α] (links : α → Option (List α)) : ℕ → List α → α → Listing α
  | 0, seen, _ => ⟨seen, [], false⟩
  | n + 1, seen, a =>
    if a ∈ seen then ⟨seen, [], true⟩
    else
      match links a with
      | none => ⟨a :: seen, [], false⟩
      | some cs =>
        let w := each (visit links n) (a :: seen) cs
        ⟨w.seen, cs ++ w.listed, true⟩

def tree (links : α → Option (List α)) : ℕ → α → List α
  | 0, _ => []
  | n + 1, a =>
    let cs := (links a).getD []
    cs ++ cs.flatMap (tree links n)

theorem each_nil (visit : List α → α → Listing α) (seen : List α) :
    each visit seen [] = ⟨seen, [], true⟩ := rfl

theorem each_cons_ok {visit : List α → α → Listing α} {seen : List α} {c : α} (cs : List α)
    (h : (visit seen c).ok = true) :
    each visit seen (c :: cs) = ⟨(each visit (visit seen c).seen cs).seen,
      (visit seen c).listed ++ (each visit (visit seen c).seen cs).listed,
      (each visit (visit seen c).seen cs).ok⟩ := by
  rw [each, if_pos h]

theorem each_cons_fails {visit : List α → α → Listing α} {seen : List α} {c : α} (cs : List α)
    (h : (visit seen c).ok = false) : each visit seen (c :: cs) = visit seen c := by
  rw [each, if_neg (by simp [h])]

theorem tree_some {links : α → Option (List α)} {a : α} {cs : List α} (n : ℕ) (h : links a = some cs) :
    tree links (n + 1) a = cs ++ cs.flatMap (tree links n) := by
  simp [tree, h]

theorem tree_map {β : Type*} {links : α → Option (List α)} {links' : β → Option (List β)} {f : α → β}
    (h : ∀ a, links' (f a) = (links a).map (List.map f)) (n : ℕ) :
    ∀ a, tree links' n (f a) = (tree links n a).map f := by
  induction n with
  | zero =>
    intro a
    rfl
  | succ n ih =>
    intro a
    have hcs : (links' (f a)).getD [] = ((links a).getD []).map f := by
      rw [h]
      cases links a <;> rfl
    simp only [tree, hcs, List.map_append, List.map_flatMap, List.flatMap_map, ih]

variable {links : α → Option (List α)} {n : ℕ} {seen : List α} {a : α}

theorem each_sublist {v : List α → α → Listing α} {t : α → List α}
    (hv : ∀ seen c, (v seen c).listed.Sublist (t c)) (cs : List α) :
    ∀ seen, (each v seen cs).listed.Sublist (cs.flatMap t) := by
  induction cs with
  | nil =>
    intro seen
    simp [each]
  | cons c cs ih =>
    intro seen
    rw [List.flatMap_cons]
    cases hok : (v seen c).ok with
    | true =>
      rw [each_cons_ok cs hok]
      exact (hv seen c).append (ih _)
    | false =>
      rw [each_cons_fails cs hok]
      exact (hv seen c).trans (List.sublist_append_left _ _)

theorem each_seen_subset {v : List α → α → Listing α}
    (hv : ∀ seen c, ∀ x ∈ (v seen c).seen, x ∈ seen ∨ x = c ∨ x ∈ (v seen c).listed) (cs : List α) :
    ∀ seen, ∀ x ∈ (each v seen cs).seen, x ∈ seen ∨ x ∈ cs ∨ x ∈ (each v seen cs).listed := by
  induction cs with
  | nil =>
    intro seen x hx
    exact .inl hx
  | cons c cs ih =>
    intro seen x
    cases hok : (v seen c).ok with
    | true =>
      rw [each_cons_ok cs hok]
      intro hx
      have hrest := ih _ x hx
      have hfirst := hv seen c x
      simp only [List.mem_cons, List.mem_append]
      tauto
    | false =>
      rw [each_cons_fails cs hok]
      intro hx
      have hfirst := hv seen c x hx
      simp only [List.mem_cons]
      tauto

structure Fresh (links : α → Option (List α)) (seen nodes : List α) : Prop where
  nodup : nodes.Nodup
  unseen : ∀ x ∈ nodes, x ∉ seen
  available : ∀ x ∈ nodes, ∃ cs, links x = some cs

theorem Fresh.sublist {nodes rest : List α} (h : Fresh links seen nodes) (hs : rest.Sublist nodes) :
    Fresh links seen rest :=
  ⟨h.nodup.sublist hs, fun x hx => h.unseen x (hs.subset hx), fun x hx => h.available x (hs.subset hx)⟩

theorem Fresh.append {first rest seen' : List α} (h : Fresh links seen (first ++ rest))
    (hseen : ∀ x ∈ seen', x ∈ seen ∨ x ∈ first) : Fresh links seen' rest := by
  refine ⟨?_, ?_, ?_⟩
  · exact (List.nodup_append.mp h.nodup).2.1
  · intro x hx hx'
    rcases hseen x hx' with hs | hf
    · exact h.unseen x (List.mem_append_right _ hx) hs
    · exact (List.nodup_append.mp h.nodup).2.2 x hf x hx rfl
  · intro x hx
    exact h.available x (List.mem_append_right _ hx)

theorem Fresh.perm {nodes rest : List α} (h : Fresh links seen nodes) (hp : nodes.Perm rest) :
    Fresh links seen rest :=
  ⟨hp.nodup_iff.mp h.nodup, fun x hx => h.unseen x (hp.mem_iff.mpr hx),
    fun x hx => h.available x (hp.mem_iff.mpr hx)⟩

section Visit

variable [DecidableEq α]

theorem visit_seen (h : a ∈ seen) : visit links (n + 1) seen a = ⟨seen, [], true⟩ := by
  rw [visit, if_pos h]

theorem visit_none (h : a ∉ seen) (hl : links a = none) :
    visit links (n + 1) seen a = ⟨a :: seen, [], false⟩ := by
  simp [visit, h, hl]

theorem visit_some {cs : List α} (h : a ∉ seen) (hl : links a = some cs) :
    visit links (n + 1) seen a = ⟨(each (visit links n) (a :: seen) cs).seen,
      cs ++ (each (visit links n) (a :: seen) cs).listed, true⟩ := by
  simp [visit, h, hl]

theorem visit_sublist (links : α → Option (List α)) (n : ℕ) :
    ∀ seen a, (visit links n seen a).listed.Sublist (tree links n a) := by
  induction n with
  | zero =>
    intro seen a
    simp [visit]
  | succ n ih =>
    intro seen a
    by_cases ha : a ∈ seen
    · simp [visit_seen ha]
    · cases hl : links a with
      | none => simp [visit_none ha hl]
      | some cs =>
        rw [visit_some ha hl, tree_some n hl]
        exact (List.Sublist.refl cs).append (each_sublist ih cs (a :: seen))

theorem visit_seen_subset (links : α → Option (List α)) (n : ℕ) :
    ∀ seen a, ∀ x ∈ (visit links n seen a).seen,
      x ∈ seen ∨ x = a ∨ x ∈ (visit links n seen a).listed := by
  induction n with
  | zero =>
    intro seen a x hx
    exact .inl hx
  | succ n ih =>
    intro seen a x
    by_cases ha : a ∈ seen
    · rw [visit_seen ha]
      exact .inl
    · cases hl : links a with
      | none =>
        rw [visit_none ha hl]
        intro hx
        rcases List.mem_cons.mp hx with rfl | hx
        · exact .inr (.inl rfl)
        · exact .inl hx
      | some cs =>
        rw [visit_some ha hl]
        intro hx
        have h := each_seen_subset ih cs (a :: seen) x hx
        simp only [List.mem_cons, List.mem_append] at h ⊢
        tauto

def Complete (links : α → Option (List α)) (n : ℕ) : Prop :=
  ∀ seen a, Fresh links seen (a :: (visit links n seen a).listed) →
    (visit links n seen a).ok = true ∧ (visit links n seen a).listed = tree links n a

theorem each_complete (h : Complete links n) (cs : List α) : ∀ seen,
    Fresh links seen (cs ++ (each (visit links n) seen cs).listed) →
      (each (visit links n) seen cs).listed = cs.flatMap (tree links n) := by
  induction cs with
  | nil =>
    intro seen _
    rfl
  | cons c cs ih =>
    intro seen hf
    cases hok : (visit links n seen c).ok with
    | true =>
      rw [each_cons_ok cs hok] at hf ⊢
      have hperm : (c :: cs ++ ((visit links n seen c).listed ++
          (each (visit links n) (visit links n seen c).seen cs).listed)).Perm
            ((c :: (visit links n seen c).listed) ++ (cs ++
              (each (visit links n) (visit links n seen c).seen cs).listed)) := by
        simp only [List.cons_append, List.perm_cons, ← List.append_assoc]
        exact List.perm_append_comm.append_right _
      have hf' := hf.perm hperm
      have hfirst := (h seen c (hf'.sublist (List.sublist_append_left _ _))).2
      have hrest := ih (visit links n seen c).seen (hf'.append fun x hx => by
        simpa using visit_seen_subset links n seen c x hx)
      rw [hrest, hfirst, List.flatMap_cons]
    | false =>
      rw [each_cons_fails cs hok] at hf
      have hsub : (c :: (visit links n seen c).listed).Sublist
          (c :: cs ++ (visit links n seen c).listed) :=
        (List.sublist_append_right cs _).cons_cons c
      have hc := (h seen c (hf.sublist hsub)).1
      rw [hok] at hc
      contradiction

theorem visit_zero_each (links : α → Option (List α)) (seen cs : List α) :
    (each (visit links 0) seen cs).listed = cs.flatMap (tree links 0) := by
  have htree : cs.flatMap (tree links 0) = [] := by
    simp [tree]
  have hsub := each_sublist (visit_sublist links 0) cs seen
  rw [htree] at hsub ⊢
  exact List.sublist_nil.mp hsub

theorem visit_one (h : ∃ cs, links a = some cs) :
    (visit links 1 [] a).listed = tree links 1 a := by
  obtain ⟨cs, hl⟩ := h
  rw [visit_some (by simp) hl, tree_some 0 hl, visit_zero_each]

theorem visit_complete_step (h : n = 0 ∨ Complete links n) : Complete links (n + 1) := by
  intro seen a hf
  obtain ⟨cs, hl⟩ := hf.available a (by simp)
  have ha : a ∉ seen := hf.unseen a (by simp)
  rw [visit_some ha hl] at hf ⊢
  rw [tree_some n hl]
  refine ⟨rfl, ?_⟩
  rcases h with rfl | h
  · rw [visit_zero_each links (a :: seen) cs]
  · have hf' : Fresh links (a :: seen) (cs ++ (each (visit links n) (a :: seen) cs).listed) := by
      apply (show Fresh links seen ([a] ++ _) from hf).append
      simp [or_comm]
    rw [each_complete h cs (a :: seen) hf']

theorem visit_complete (links : α → Option (List α)) (n : ℕ) : Complete links (n + 1) := by
  induction n with
  | zero => exact visit_complete_step (.inl rfl)
  | succ n ih => exact visit_complete_step (.inr ih)

theorem visit_eq_tree (h : Fresh links [] (a :: tree links (n + 1) a)) :
    (visit links (n + 1) [] a).listed = tree links (n + 1) a := by
  apply (visit_complete links n [] a _).2
  exact h.sublist ((visit_sublist links (n + 1) [] a).cons_cons a)

end Visit

end IpfsLite.DepthFirst
