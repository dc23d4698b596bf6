import Mathlib.Tactic

namespace IpfsLite.Runs

variable {σ α : Type*} {R G : σ → α → σ → Prop}

inductive Run (R : σ → α → σ → Prop) (s : σ) : List α → σ → Prop
  | refl : Run R s [] s
  | tail {as : List α} {u v : σ} {a : α} (h : Run R s as u) (e : R u a v) : Run R s (as ++ [a]) v

theorem Run.single {s t : σ} {a : α} (e : R s a t) : Run R s [a] t := .tail .refl e

theorem Run.trans {s t u : σ} {as bs : List α} (h : Run R s as t) (k : Run R t bs u) :
    Run R s (as ++ bs) u := by
  induction k with
  | refl => simpa using h
  | tail _ e ih => rw [← List.append_assoc]; exact ih.tail e

theorem Run.head {s t u : σ} {a : α} {bs : List α} (e : R s a t) (k : Run R t bs u) :
    Run R s (a :: bs) u := (Run.single e).trans k

theorem Run.mono {s t : σ} {as : List α} (hRG : ∀ u a v, R u a v → G u a v)
    (h : Run R s as t) : Run G s as t := by
  induction h with
  | refl => exact .refl
  | tail _ e ih => exact ih.tail (hRG _ _ _ e)

theorem Run.invariant {P : σ → Prop} (hstep : ∀ u a v, P u → R u a v → P v)
    {s t : σ} {as : List α} (h : Run R s as t) (hs : P s) : P t := by
  induction h with
  | refl => exact hs
  | tail _ e ih => exact hstep _ _ _ ih e

theorem Run.history {P : List α → σ → Prop}
    (hstep : ∀ as u a v, P as u → R u a v → P (as ++ [a]) v)
    {s t : σ} {as : List α} (h : Run R s as t) (hs : P [] s) : P as t := by
  induction h with
  | refl => exact hs
  | tail _ e ih => exact hstep _ _ _ _ ih e

theorem Run.mono_of_invariant {P : σ → Prop} (hP : ∀ u a v, P u → R u a v → P v)
    (hRG : ∀ u a v, P u → R u a v → G u a v) {s t : σ} {as : List α} (hs : P s) (h : Run R s as t) :
    Run G s as t := by
  have hrun : Run G s as t ∧ P t := by
    induction h with
    | refl => exact ⟨.refl, hs⟩
    | tail _ e ih => exact ⟨ih.1.tail (hRG _ _ _ ih.2 e), hP _ _ _ ih.2 e⟩
  exact hrun.1

theorem Run.congr_of_invariant {P : σ → Prop} (hP : ∀ u a v, P u → R u a v → P v)
    (hRG : ∀ u a v, P u → (R u a v ↔ G u a v)) {s t : σ} {as : List α} (hs : P s) :
    Run R s as t ↔ Run G s as t := by
  constructor
  · intro h
    exact h.mono_of_invariant hP (fun u a v hu => (hRG u a v hu).mp) hs
  · intro h
    have hstep (u : σ) (a : α) (v : σ) (hu : P u) (e : G u a v) : R u a v := (hRG u a v hu).mpr e
    exact h.mono_of_invariant (fun u a v hu e => hP u a v hu (hstep u a v hu e)) hstep hs

theorem Run.restrict {p : α → Prop} {s t : σ} {as : List α} (h : Run R s as t)
    (hp : ∀ a ∈ as, p a) : Run (fun u a v => R u a v ∧ p a) s as t := by
  induction h with
  | refl => exact .refl
  | @tail as u v a _ e ih =>
    exact (ih (fun b hb => hp b (List.mem_append_left _ hb))).tail ⟨e, hp a (by simp)⟩

theorem run_foldlM {f : σ → α → Option σ} {s t : σ} {as : List α}
    (h : as.foldlM f s = some t) : Run (fun u a v => f u a = some v) s as t := by
  induction as generalizing s with
  | nil =>
    obtain rfl : s = t := by simpa using h
    exact .refl
  | cons a as ih =>
    rw [List.foldlM_cons] at h
    obtain ⟨u, hu, ht⟩ := Option.bind_eq_some_iff.mp h
    exact .head hu (ih ht)

theorem run_foldl (f : σ → α → σ) (s : σ) (as : List α) : Run (fun u a v => v = f u a) s as (as.foldl f s) := by
  induction as generalizing s with
  | nil => exact .refl
  | cons a as ih => exact .head rfl (ih (f s a))

def stateAfter (f : σ → α → Option σ) (s : σ) (as : List α) (h : (as.foldlM f s).isSome) : σ :=
  (as.foldlM f s).get h

theorem run_stateAfter (f : σ → α → Option σ) (s : σ) (as : List α) (h : (as.foldlM f s).isSome) :
    Run (fun u a v => f u a = some v) s as (stateAfter f s as h) := run_foldlM (Option.some_get h).symm

theorem exists_run (f : σ → α → Option σ) (s : σ) (as : List α) (p : σ → Bool)
    (h : (as.foldlM f s).any p = true) :
    ∃ t, Run (fun u a v => f u a = some v) s as t ∧ p t = true := by
  obtain ⟨t, ht, hp⟩ := (Option.any_eq_true _ _).mp h
  exact ⟨t, run_foldlM ht, hp⟩

def Always (P : List α → α → Prop) (as : List α) : Prop :=
  ∀ pre a post, as = pre ++ a :: post → P pre a

variable {P : List α → α → Prop}

@[simp] theorem always_nil : Always P [] := by
  intro pre a post h
  simp at h

theorem always_append_singleton {as : List α} {a : α} :
    Always P (as ++ [a]) ↔ Always P as ∧ P as a := by
  constructor
  · intro h
    exact ⟨fun pre b post he => h pre b (post ++ [a]) (by simp [he]), h as a [] rfl⟩
  · rintro ⟨h, ha⟩ pre b post he
    rcases List.eq_nil_or_concat post with rfl | ⟨post, c, rfl⟩
    · obtain ⟨rfl, hb⟩ := List.append_inj' he rfl
      obtain rfl : a = b := by simpa using hb
      exact ha
    · rw [List.concat_eq_append, ← List.cons_append, ← List.append_assoc] at he
      exact h pre b post (List.append_inj' he rfl).1

end IpfsLite.Runs
