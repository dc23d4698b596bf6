import IpfsLite.Lib.Runs

/-!
Objects whose calls overlap. A history lists the calls and the answers in the order in which they
happened; it is linearizable if each answered call can be given one moment between its call and its answer
so that the calls, taken at these moments, are a run of the sequential object.
-/

namespace IpfsLite.Linearizability

open Runs Function
open scoped List

variable {κ σ α ρ : Type*}

inductive Event (κ α ρ : Type*)
  | call (k : κ) (req : α)
  | answer (k : κ) (res : ρ)

structure Op (κ α ρ : Type*) where
  id : κ
  req : α
  res : ρ

inductive Legal (spec : σ → α → ρ → σ → Prop) (s : σ) : List (Op κ α ρ) → σ → Prop
  | nil : Legal spec s [] s
  | snoc {l : List (Op κ α ρ)} {t u : σ} (h : Legal spec s l t) (op : Op κ α ρ)
      (hop : spec t op.req op.res u) : Legal spec s (l ++ [op]) u

def Before (h : List (Event κ α ρ)) (k k' : κ) : Prop :=
  ∃ res req, [Event.answer k res, Event.call k' req] <+ h

structure Linearizes (spec : σ → α → ρ → σ → Prop) (s : σ) (h : List (Event κ α ρ)) (l : List (Op κ α ρ)) :
    Prop where
  legal : ∃ t, Legal spec s l t
  nodup : (l.map Op.id).Nodup
  called : ∀ op ∈ l, Event.call op.id op.req ∈ h
  answered : ∀ k res, Event.answer k res ∈ h → ∃ req, ⟨k, req, res⟩ ∈ l
  order : ∀ k k', Before h k k' → k' ∈ l.map Op.id → [k, k'] <+ l.map Op.id

/-! The object each of whose calls takes effect at one moment. -/

inductive Status (α ρ : Type*)
  | fresh
  | pending (req : α)
  | done (req : α) (res : ρ)
  | over (req : α) (res : ρ)

structure Atomic (κ σ α ρ : Type*) where
  state : σ
  status : κ → Status α ρ

namespace Atomic

def initial (s : σ) : Atomic κ σ α ρ := ⟨s, fun _ => .fresh⟩

variable [DecidableEq κ]

def setStatus (a : Atomic κ σ α ρ) (k : κ) (st : Status α ρ) : Atomic κ σ α ρ :=
  { a with status := update a.status k st }

@[simp] theorem setStatus_self (a : Atomic κ σ α ρ) (k : κ) (st : Status α ρ) :
    (a.setStatus k st).status k = st := update_self ..

theorem setStatus_of_ne (a : Atomic κ σ α ρ) {k k' : κ} (h : k' ≠ k) (st : Status α ρ) :
    (a.setStatus k st).status k' = a.status k' := update_of_ne h ..

inductive Step (spec : σ → α → ρ → σ → Prop) (a : Atomic κ σ α ρ) :
    Option (Event κ α ρ) → Atomic κ σ α ρ → Prop
  | call (k : κ) (req : α) (h : a.status k = .fresh) : Step spec a (some (.call k req)) (a.setStatus k (.pending req))
  | perform (k : κ) (req : α) (res : ρ) (t : σ) (h : a.status k = .pending req) (hspec : spec a.state req res t) :
      Step spec a none { a.setStatus k (.done req res) with state := t }
  | answer (k : κ) (req : α) (res : ρ) (h : a.status k = .done req res) :
      Step spec a (some (.answer k res)) (a.setStatus k (.over req res))

def Steps (spec : σ → α → ρ → σ → Prop) (a : Atomic κ σ α ρ) (h : List (Event κ α ρ)) (a' : Atomic κ σ α ρ) : Prop :=
  ∃ es, Run (Step spec) a es a' ∧ es.filterMap id = h

end Atomic

namespace Status

def Performed (req : α) (res : ρ) (st : Status α ρ) : Prop := st = .done req res ∨ st = .over req res

end Status

structure Performs (spec : σ → α → ρ → σ → Prop) (s : σ) (h : List (Event κ α ρ)) (a : Atomic κ σ α ρ)
    (l : List (Op κ α ρ)) : Prop where
  legal : Legal spec s l a.state
  nodup : (l.map Op.id).Nodup
  mem_iff : ∀ op, op ∈ l ↔ (a.status op.id).Performed op.req op.res
  called : ∀ k, (∀ req, a.status k = .pending req → Event.call k req ∈ h) ∧
    ∀ req res, (a.status k).Performed req res → Event.call k req ∈ h
  answered : ∀ k res, Event.answer k res ∈ h → ∃ req, a.status k = .over req res
  order : ∀ k k', Before h k k' → k' ∈ l.map Op.id → [k, k'] <+ l.map Op.id

variable {spec : σ → α → ρ → σ → Prop} {s : σ} {h : List (Event κ α ρ)} {a a' : Atomic κ σ α ρ}
  {l : List (Op κ α ρ)}

theorem Performs.linearizes (hp : Performs spec s h a l) : Linearizes spec s h l := by
  refine ⟨⟨_, hp.legal⟩, hp.nodup, ?_, ?_, hp.order⟩
  · exact fun op hop => (hp.called op.id).2 _ _ ((hp.mem_iff op).mp hop)
  · intro k res hk
    obtain ⟨req, hover⟩ := hp.answered k res hk
    exact ⟨req, (hp.mem_iff _).mpr (.inr hover)⟩

theorem Performs.mem_ids (hp : Performs spec s h a l) {k : κ} :
    k ∈ l.map Op.id ↔ ∃ req res, (a.status k).Performed req res := by
  constructor
  · intro hk
    obtain ⟨op, hop, rfl⟩ := List.mem_map.mp hk
    exact ⟨op.req, op.res, (hp.mem_iff op).mp hop⟩
  · rintro ⟨req, res, hperformed⟩
    exact List.mem_map.mpr ⟨⟨k, req, res⟩, (hp.mem_iff _).mpr hperformed, rfl⟩

theorem before_snoc {e : Event κ α ρ} {k k' : κ} (hb : Before (h ++ [e]) k k') :
    Before h k k' ∨ (∃ req, e = .call k' req) ∧ ∃ res, Event.answer k res ∈ h := by
  obtain ⟨res, req, hsub⟩ := hb
  obtain ⟨l₁, l₂, hl, h₁, h₂⟩ := List.sublist_append_iff.mp hsub
  rcases List.sublist_singleton.mp h₂ with rfl | rfl
  · rw [List.append_nil] at hl
    exact .inl ⟨res, req, hl ▸ h₁⟩
  · have hpair : [Event.answer k res] ++ [.call k' req] = l₁ ++ [e] := hl
    obtain ⟨hfirst, hlast⟩ := List.append_inj' hpair rfl
    obtain rfl : .call k' req = e := List.singleton_inj.mp hlast
    exact .inr ⟨⟨req, rfl⟩, res, List.singleton_sublist.mp (hfirst ▸ h₁)⟩

theorem performed_over {st : Status α ρ} {req : α} {res : ρ} (hst : st = .over req res) {req' : α} {res' : ρ} :
    st.Performed req' res' ↔ req = req' ∧ res = res' := by
  simp [Status.Performed, hst]

theorem performed_done {st : Status α ρ} {req : α} {res : ρ} (hst : st = .done req res) {req' : α} {res' : ρ} :
    st.Performed req' res' ↔ req = req' ∧ res = res' := by
  simp [Status.Performed, hst]

section Step

variable [DecidableEq κ] {k : κ} {req : α} {res : ρ}

theorem Performs.call (hp : Performs spec s h a l) (hfresh : a.status k = .fresh) :
    Performs spec s (h ++ [.call k req]) (a.setStatus k (.pending req)) l := by
  have hnew : k ∉ l.map Op.id := by
    intro hk
    obtain ⟨req, res, hperformed⟩ := hp.mem_ids.mp hk
    simp [Status.Performed, hfresh] at hperformed
  refine ⟨hp.legal, hp.nodup, fun op => ?_, fun k' => ?_, fun k' res hk' => ?_, fun k₁ k₂ hb hk₂ => ?_⟩
  · by_cases hop : op.id = k
    · have hmem : op ∉ l := fun hmem => hnew (hop ▸ List.mem_map_of_mem hmem)
      simp [hmem, hop, Status.Performed]
    · rw [Atomic.setStatus_of_ne _ hop]
      exact hp.mem_iff op
  · by_cases hk' : k' = k
    · subst hk'
      simp [Status.Performed]
    · rw [Atomic.setStatus_of_ne _ hk']
      exact ⟨fun req hreq => List.mem_append_left _ ((hp.called k').1 req hreq),
        fun req res hreq => List.mem_append_left _ ((hp.called k').2 req res hreq)⟩
  · obtain ⟨req', hover⟩ := hp.answered k' res (by simpa using hk')
    have hne : k' ≠ k := by
      rintro rfl
      rw [hfresh] at hover
      contradiction
    exact ⟨req', (Atomic.setStatus_of_ne _ hne _).trans hover⟩
  · rcases before_snoc hb with hb | ⟨⟨req', hcall⟩, -⟩
    · exact hp.order k₁ k₂ hb hk₂
    · obtain ⟨rfl, -⟩ := Event.call.inj hcall
      exact absurd hk₂ hnew

theorem Performs.perform {t : σ} (hp : Performs spec s h a l) (hpending : a.status k = .pending req)
    (hspec : spec a.state req res t) :
    Performs spec s h { a.setStatus k (.done req res) with state := t } (l ++ [⟨k, req, res⟩]) := by
  have hnew : k ∉ l.map Op.id := by
    intro hk
    obtain ⟨req, res, hperformed⟩ := hp.mem_ids.mp hk
    simp [Status.Performed, hpending] at hperformed
  have hself : (a.setStatus k (.done req res)).status k = .done req res := a.setStatus_self k _
  refine ⟨.snoc hp.legal ⟨k, req, res⟩ hspec, ?_, fun op => ?_, fun k' => ?_, fun k' res' hk' => ?_,
    fun k₁ k₂ hb hk₂ => ?_⟩
  · rw [List.map_append]
    refine List.nodup_append.mpr ⟨hp.nodup, List.nodup_singleton _, fun i hi j hj hij => hnew ?_⟩
    obtain rfl : j = k := List.mem_singleton.mp hj
    exact hij ▸ hi
  · by_cases hop : op.id = k
    · have hmem : op ∉ l := fun hmem => hnew (hop ▸ List.mem_map_of_mem hmem)
      obtain ⟨id, req', res'⟩ := op
      subst hop
      rw [performed_done hself]
      simp only [List.mem_append, hmem, false_or, List.mem_singleton, Op.mk.injEq, true_and]
      exact ⟨fun ⟨h₁, h₂⟩ => ⟨h₁.symm, h₂.symm⟩, fun ⟨h₁, h₂⟩ => ⟨h₁.symm, h₂.symm⟩⟩
    · have hne : op ≠ ⟨k, req, res⟩ := fun heq => hop (by rw [heq])
      rw [List.mem_append, List.mem_singleton, or_iff_left hne]
      exact (hp.mem_iff op).trans (by rw [Atomic.setStatus_of_ne _ hop])
  · by_cases hk' : k' = k
    · subst hk'
      have hcall := (hp.called k').1 req hpending
      refine ⟨fun req' hreq' => ?_, fun req' res' hreq' => ?_⟩
      · rw [hself] at hreq'
        contradiction
      · obtain ⟨rfl, -⟩ := (performed_done hself).mp hreq'
        exact hcall
    · have hsame := Atomic.setStatus_of_ne a hk' (.done req res)
      exact ⟨fun req' hreq' => (hp.called k').1 req' (hsame.symm.trans hreq'),
        fun req' res' hreq' => (hp.called k').2 req' res' (hsame ▸ hreq')⟩
  · obtain ⟨req', hover⟩ := hp.answered k' res' hk'
    have hne : k' ≠ k := by
      rintro rfl
      rw [hpending] at hover
      contradiction
    exact ⟨req', (Atomic.setStatus_of_ne _ hne _).trans hover⟩
  · rw [List.map_append] at hk₂ ⊢
    rcases List.mem_append.mp hk₂ with hk₂ | hk₂
    · exact (hp.order k₁ k₂ hb hk₂).trans (List.sublist_append_left _ _)
    · obtain rfl : k₂ = k := List.mem_singleton.mp hk₂
      -- The call `k₁` has been answered, so it has taken effect before this one.
      obtain ⟨res₁, req₂, hsub⟩ := hb
      obtain ⟨req₁, hover⟩ := hp.answered k₁ res₁ (hsub.subset List.mem_cons_self)
      have hk₁ : k₁ ∈ l.map Op.id := hp.mem_ids.mpr ⟨req₁, res₁, .inr hover⟩
      exact (List.singleton_sublist.mpr hk₁).append (List.Sublist.refl [k₂])

theorem Performs.answer (hp : Performs spec s h a l) (hdone : a.status k = .done req res) :
    Performs spec s (h ++ [.answer k res]) (a.setStatus k (.over req res)) l := by
  have hself : (a.setStatus k (.over req res)).status k = .over req res := a.setStatus_self k _
  have hperformed (k' : κ) (req' : α) (res' : ρ) :
      ((a.setStatus k (.over req res)).status k').Performed req' res' ↔ (a.status k').Performed req' res' := by
    by_cases hk' : k' = k
    · rw [hk', performed_over hself, performed_done hdone]
    · rw [Atomic.setStatus_of_ne _ hk']
  refine ⟨hp.legal, hp.nodup, fun op => ?_, fun k' => ⟨fun req' hreq' => ?_, fun req' res' hreq' => ?_⟩,
    fun k' res' hk' => ?_, fun k₁ k₂ hb hk₂ => ?_⟩
  · rw [hperformed]
    exact hp.mem_iff op
  · have hne : k' ≠ k := by
      rintro rfl
      rw [hself] at hreq'
      contradiction
    rw [Atomic.setStatus_of_ne _ hne] at hreq'
    exact List.mem_append_left _ ((hp.called k').1 req' hreq')
  · exact List.mem_append_left _ ((hp.called k').2 req' res' ((hperformed k' req' res').mp hreq'))
  · rcases List.mem_append.mp hk' with hk' | hk'
    · obtain ⟨req', hover⟩ := hp.answered k' res' hk'
      have hne : k' ≠ k := by
        rintro rfl
        rw [hdone] at hover
        contradiction
      exact ⟨req', (Atomic.setStatus_of_ne _ hne _).trans hover⟩
    · obtain ⟨rfl, rfl⟩ := Event.answer.inj (List.mem_singleton.mp hk')
      exact ⟨req, hself⟩
  · rcases before_snoc hb with hb | ⟨⟨req', hcall⟩, -⟩
    · exact hp.order k₁ k₂ hb hk₂
    · contradiction

theorem Performs.steps {h' : List (Event κ α ρ)} (hp : Performs spec s h a l)
    (hsteps : Atomic.Steps spec a h' a') : ∃ l', Performs spec s (h ++ h') a' l' := by
  obtain ⟨es, hrun, rfl⟩ := hsteps
  induction hrun with
  | refl => exact ⟨l, by simpa using hp⟩
  | tail _ hstep ih =>
    obtain ⟨l', hl'⟩ := ih
    rw [List.filterMap_append, ← List.append_assoc]
    cases hstep with
    | call k req hfresh => exact ⟨_, hl'.call hfresh⟩
    | perform k req res t hpending hspec => exact ⟨_, by simpa using hl'.perform hpending hspec⟩
    | answer k req res hdone => exact ⟨_, hl'.answer hdone⟩

omit [DecidableEq κ] in
theorem performs_initial : Performs spec s [] (Atomic.initial s : Atomic κ σ α ρ) [] := by
  refine ⟨.nil, List.nodup_nil, fun op => ?_, fun k => ⟨fun req hreq => ?_, fun req res hreq => ?_⟩, fun k res hk => ?_,
    fun k k' _ hk' => absurd hk' List.not_mem_nil⟩
  · simp [Atomic.initial, Status.Performed]
  · contradiction
  · simp [Atomic.initial, Status.Performed] at hreq
  · contradiction

theorem Atomic.Steps.refl : Atomic.Steps spec a [] a := ⟨[], .refl, rfl⟩

theorem Atomic.Steps.trans {a₁ a₂ a₃ : Atomic κ σ α ρ} {h₁ h₂ : List (Event κ α ρ)}
    (hs₁ : Atomic.Steps spec a₁ h₁ a₂) (hs₂ : Atomic.Steps spec a₂ h₂ a₃) : Atomic.Steps spec a₁ (h₁ ++ h₂) a₃ := by
  obtain ⟨es₁, hrun₁, rfl⟩ := hs₁
  obtain ⟨es₂, hrun₂, rfl⟩ := hs₂
  exact ⟨es₁ ++ es₂, hrun₁.trans hrun₂, List.filterMap_append ..⟩

theorem Atomic.Step.steps {o : Option (Event κ α ρ)} (hstep : Atomic.Step spec a o a') :
    Atomic.Steps spec a o.toList a' := ⟨[o], .single hstep, by cases o <;> rfl⟩

/-- A system whose steps are matched by steps of the atomic object, with the same calls and answers, has
linearizable histories only, and its state is matched by what the operations leave. -/
theorem linearizes_of_simulation {γ ε : Type*} {Next : γ → ε → γ → Prop} {R : γ → Atomic κ σ α ρ → Prop}
    {seen : ε → List (Event κ α ρ)} {c c' : γ}
    (hsim : ∀ c e c' a, R c a → Next c e c' → ∃ a', Atomic.Steps spec a (seen e) a' ∧ R c' a')
    (hinit : R c (.initial s)) {es : List ε} (hrun : Run Next c es c') :
    ∃ l a, Linearizes spec s (es.flatMap seen) l ∧ Legal spec s l a.state ∧ R c' a := by
  have hmatch : ∃ a, Atomic.Steps spec (.initial s) (es.flatMap seen) a ∧ R c' a := by
    induction hrun with
    | refl => exact ⟨_, .refl, hinit⟩
    | tail _ hstep ih =>
      obtain ⟨a, hsteps, hR⟩ := ih
      obtain ⟨a', hsteps', hR'⟩ := hsim _ _ _ a hR hstep
      rw [List.flatMap_append, List.flatMap_singleton]
      exact ⟨a', hsteps.trans hsteps', hR'⟩
  obtain ⟨a, hsteps, hR⟩ := hmatch
  obtain ⟨l, hl⟩ := performs_initial.steps hsteps
  exact ⟨l, a, hl.linearizes, hl.legal, hR⟩

end Step

end IpfsLite.Linearizability
