import Mathlib.Tactic

/-!
Codes that can be read off the front of a text. `D` is what may follow a code word: with a `D` that
is always true the code is prefix-free.
-/

namespace IpfsLite.PrefixCode

variable {α β χ : Type*}

def ReadsOff (D : List χ → Prop) (enc : α → List χ) (a : α) : Prop :=
  ∀ b r s, D r → D s → enc a ++ r = enc b ++ s → a = b ∧ r = s

def Free (_ : List χ) : Prop := True

variable {D : List χ → Prop} {enc : α → List χ}

theorem injective_of_readsOff (hD : D []) (h : ∀ a, ReadsOff D enc a) : Function.Injective enc := by
  intro a b hab
  exact (h a b [] [] hD hD (by rw [hab])).1

theorem ReadsOff.cons (x : χ) {a : α} (h : ReadsOff D enc a) : ReadsOff D (fun a => x :: enc a) a := by
  intro b r s hr hs he
  exact h b r s hr hs (List.cons.inj he).2

theorem ReadsOff.pair {enc' : β → List χ} {a : α} {b : β} (ha : ReadsOff Free enc a) (hb : ReadsOff D enc' b) :
    ReadsOff D (fun p : α × β => enc p.1 ++ enc' p.2) (a, b) := by
  rintro ⟨c, d⟩ r s hr hs he
  simp only [List.append_assoc] at he
  obtain ⟨rfl, hrest⟩ := ha c _ _ trivial trivial he
  obtain ⟨rfl, hrs⟩ := hb d r s hr hs hrest
  exact ⟨rfl, hrs⟩

theorem flatMap_closed (close : χ) (hc : ∀ a, enc a ≠ [] ∧ (enc a).head? ≠ some close)
    (hD : ∀ (as : List α) r, D (as.flatMap enc ++ close :: r)) {as : List α}
    (h : ∀ a ∈ as, ReadsOff D enc a) : ReadsOff Free (fun as => as.flatMap enc ++ [close]) as := by
  intro bs r s _ _ he
  simp only [List.append_assoc, List.singleton_append] at he
  have apart (b : α) (bs : List α) (r s : List χ) :
      close :: r ≠ enc b ++ (bs.flatMap enc ++ close :: s) := by
    intro hb
    obtain ⟨hne, hhead⟩ := hc b
    apply hhead
    rw [← List.head?_append_of_ne_nil _ hne, ← hb]
    rfl
  induction as generalizing bs with
  | nil =>
    cases bs with
    | nil => exact ⟨rfl, (List.cons.inj he).2⟩
    | cons b bs =>
      simp only [List.flatMap_nil, List.nil_append, List.flatMap_cons, List.append_assoc] at he
      exact absurd he (apart b bs r s)
  | cons a as ih =>
    cases bs with
    | nil =>
      simp only [List.flatMap_nil, List.nil_append, List.flatMap_cons, List.append_assoc] at he
      exact absurd he.symm (apart a as s r)
    | cons b bs =>
      simp only [List.flatMap_cons, List.append_assoc] at he
      obtain ⟨rfl, hrest⟩ := h a (by simp) b _ _ (hD as r) (hD bs s) he
      obtain ⟨rfl, hrs⟩ := ih (fun c hc => h c (by simp [hc])) bs hrest
      exact ⟨rfl, hrs⟩

theorem intercalate_cons (sep : χ) (w : List χ) (ws : List (List χ)) :
    [sep].intercalate (w :: ws) = w ++ ws.flatMap (sep :: ·) := by
  induction ws generalizing w with
  | nil => simp
  | cons v ws ih => rw [List.intercalate_cons_cons, ih, List.flatMap_cons]; simp

theorem separated_closed (sep close : χ) (hne : sep ≠ close)
    (hc : ∀ a, enc a ≠ [] ∧ (enc a).head? ≠ some close) (hsep : ∀ r, D (sep :: r))
    (hclose : ∀ r, D (close :: r)) {as : List α} (h : ∀ a ∈ as, ReadsOff D enc a) :
    ReadsOff Free (fun as => [sep].intercalate (as.map enc) ++ [close]) as := by
  have hrest {as : List α} (h : ∀ a ∈ as, ReadsOff D enc a) :
      ReadsOff Free (fun as => as.flatMap (fun a => sep :: enc a) ++ [close]) as := by
    apply flatMap_closed close (D := D)
    · exact fun a => ⟨List.cons_ne_nil _ _, by simpa using hne⟩
    · intro as r
      cases as with
      | nil => exact hclose r
      | cons a as => exact hsep _
    · exact fun a ha => (h a ha).cons sep
  have hbody (a : α) (as : List α) (r : List χ) : [sep].intercalate ((a :: as).map enc) ++ [close] ++ r =
      enc a ++ (as.flatMap (fun a => sep :: enc a) ++ [close] ++ r) := by
    rw [List.map_cons, intercalate_cons, List.flatMap_map]
    simp
  have apart (b : α) (t r : List χ) : close :: r ≠ enc b ++ t := by
    intro hb
    apply (hc b).2
    rw [← List.head?_append_of_ne_nil _ (hc b).1, ← hb]
    rfl
  have hfollow (as : List α) (r : List χ) : D (as.flatMap (fun a => sep :: enc a) ++ [close] ++ r) := by
    cases as with
    | nil => exact hclose r
    | cons a as => exact hsep _
  intro bs r s _ _ he
  cases as with
  | nil =>
    cases bs with
    | nil => exact ⟨rfl, (List.cons.inj he).2⟩
    | cons b bs =>
      rw [hbody] at he
      exact absurd he (apart b _ r)
  | cons a as =>
    cases bs with
    | nil =>
      rw [hbody] at he
      exact absurd he.symm (apart a _ s)
    | cons b bs =>
      rw [hbody, hbody] at he
      obtain ⟨rfl, hrest'⟩ := h a (by simp) b _ _ (hfollow as r) (hfollow bs s) he
      obtain ⟨rfl, hrs⟩ := hrest (fun c hc => h c (by simp [hc])) bs r s trivial trivial hrest'
      exact ⟨rfl, hrs⟩

theorem flatMap_length {as bs : List α} (hl : as.length = bs.length)
    (h : ∀ a ∈ as, ReadsOff Free enc a) {r s : List χ} (he : as.flatMap enc ++ r = bs.flatMap enc ++ s) :
    as = bs ∧ r = s := by
  induction as generalizing bs with
  | nil =>
    obtain rfl := List.eq_nil_of_length_eq_zero hl.symm
    exact ⟨rfl, he⟩
  | cons a as ih =>
    cases bs with
    | nil => exact absurd hl (by simp)
    | cons b bs =>
      simp only [List.flatMap_cons, List.append_assoc] at he
      obtain ⟨rfl, hrest⟩ := h a (by simp) b _ _ trivial trivial he
      obtain ⟨rfl, hrs⟩ := ih (Nat.succ.inj hl) (fun c hc => h c (by simp [hc])) hrest
      exact ⟨rfl, hrs⟩

theorem eq_of_stops (p : χ → Prop) {t u r s : List χ} (ht : ∀ c ∈ t, ¬p c) (hu : ∀ c ∈ u, ¬p c)
    (hr : ∀ c ∈ r.head?, p c) (hs : ∀ c ∈ s.head?, p c) (he : t ++ r = u ++ s) : t = u ∧ r = s := by
  induction t generalizing u with
  | nil =>
    cases u with
    | nil => exact ⟨rfl, he⟩
    | cons c u =>
      rw [List.nil_append] at he
      exact absurd (hr c (by simp [he])) (hu c (by simp))
  | cons c t ih =>
    cases u with
    | nil =>
      rw [List.nil_append] at he
      exact absurd (hs c (by simp [← he])) (ht c (by simp))
    | cons d u =>
      obtain ⟨rfl, hrest⟩ := List.cons.inj he
      obtain ⟨rfl, hrs⟩ := ih (fun e hm => ht e (by simp [hm])) (fun e hm => hu e (by simp [hm])) hrest
      exact ⟨rfl, hrs⟩

end IpfsLite.PrefixCode
