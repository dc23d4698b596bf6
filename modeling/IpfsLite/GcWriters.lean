import IpfsLite.GcSteps
import IpfsLite.RWLockExclusion

namespace IpfsLite

open Gc Runs

namespace Sys

variable {τ : Type*} {lib : DagLib} {s s' : Sys τ} {t : τ}

inductive Place : OpState → RWLock.Pc → List Bytes → Prop
  | idle : Place .idle .outside []
  | entering {c d : Bytes} {pc : RWLock.Pc}
      (hpc : pc = .outside ∨ pc = .entryLock ∨ pc = .entrySemaphore) :
      Place (.running (.addNode c d) [.enterRead, .put c d false, .exitRead] false) pc []
  | inside {c d : Bytes} : Place (.running (.addNode c d) [.put c d false, .exitRead] false) .reading []
  | leaving {c d : Bytes} {failed : Bool} {pc : RWLock.Pc} {puts : List Bytes}
      (hpc : pc = .reading ∨ pc = .exitLock) :
      Place (.running (.addNode c d) [.exitRead] failed) pc puts
  | unlocked {op : Op} {rest : List Instr} {failed : Bool} {puts : List Bytes}
      (hop : op.takesLock = false) (hrest : ∀ i ∈ rest, ∀ a, i.completesAt a = none) :
      Place (.running op rest failed) .outside puts
  | returned {op : Op} {puts : List Bytes} : Place (.returned op) .outside puts
  | raised {op : Op} {puts : List Bytes} : Place (.raised op) .outside puts

def Present (s : Sys τ) (c : Bytes) : Prop := c ∈ s.store.keys ∨ c ∈ s.removed

instance (s : Sys τ) (c : Bytes) : Decidable (s.Present c) := inferInstanceAs (Decidable (_ ∨ _))

structure WriterInv (s : Sys τ) : Prop where
  exclusive : ∃ holder, RWLock.Exclusive s.lock holder
  gcPlace : s.gc.holdsLock = true ↔ s.lock.pc none = .writing
  place : ∀ t, Place (s.ops t) (s.lock.pc (some t)) (s.puts t)
  overlap : s.gc.holdsLock = true → ∀ t, (s.ops t).isRunning = true → s.overlaps t = true
  locked : s.gc.holdsLock = true → ∀ t, (s.ops t).takesLock = true → s.overlaps t = true → s.puts t = []
  kept : ∀ t, (s.ops t).isRunning = true ∨ s.overlaps t = true → ∀ c ∈ s.puts t, s.Present c

structure TaskStep (s s' : Sys τ) (t : τ) : Prop where
  exclusive : ∃ holder, RWLock.Exclusive s'.lock holder
  gc : s'.gc = s.gc
  pc : ∀ u, u ≠ some t → s'.lock.pc u = s.lock.pc u
  ops : ∀ u, u ≠ t → s'.ops u = s.ops u
  puts : ∀ u, u ≠ t → s'.puts u = s.puts u
  overlaps : ∀ u, u ≠ t → s'.overlaps u = s.overlaps u
  present : ∀ c, s.Present c → s'.Present c
  place : Place (s'.ops t) (s'.lock.pc (some t)) (s'.puts t)
  overlap : s.gc.holdsLock = true → s'.overlaps t = true
  locked : s.gc.holdsLock = true → (s'.ops t).takesLock = true → s'.puts t = []
  kept : ∀ c ∈ s'.puts t, s'.Present c

theorem TaskStep.inv (h : TaskStep s s' t) (hs : WriterInv s) : WriterInv s' := by
  refine ⟨h.exclusive, ?_, ?_, ?_, ?_, ?_⟩
  · rw [h.gc, h.pc none (by simp)]
    exact hs.gcPlace
  · intro u
    by_cases hu : u = t
    · exact hu ▸ h.place
    · rw [h.ops u hu, h.puts u hu, h.pc (some u) (by simpa using hu)]
      exact hs.place u
  · intro hg u hr
    rw [h.gc] at hg
    by_cases hu : u = t
    · exact hu ▸ h.overlap hg
    · rw [h.overlaps u hu]
      exact hs.overlap hg u (h.ops u hu ▸ hr)
  · intro hg u hl ho
    rw [h.gc] at hg
    by_cases hu : u = t
    · subst hu
      exact h.locked hg hl
    · rw [h.puts u hu]
      exact hs.locked hg u (h.ops u hu ▸ hl) (h.overlaps u hu ▸ ho)
  · intro u hr c hc
    by_cases hu : u = t
    · subst hu
      exact h.kept c hc
    · rw [h.ops u hu, h.overlaps u hu] at hr
      exact h.present c (hs.kept u hr c (h.puts u hu ▸ hc))

theorem Place.takesLock_reading {o : OpState} {pc : RWLock.Pc} {puts : List Bytes} (h : Place o pc puts)
    (hr : o.isRunning = true) (hl : o.takesLock = true) :
    puts = [] ∨ pc = .reading ∨ pc = .exitLock := by
  cases h with
  | leaving hpc => exact .inr hpc
  | unlocked hop => simp [OpState.takesLock, hop] at hl
  | returned | raised => simp [OpState.isRunning] at hr
  | _ => exact .inl rfl

theorem WriterInv.no_reader (h : WriterInv s) (hg : s.gc.holdsLock = true) (t : τ) :
    s.lock.pc (some t) ≠ .reading ∧ s.lock.pc (some t) ≠ .exitLock := by
  obtain ⟨holder, hex⟩ := h.exclusive
  have hw := hex.writing_holds (h.gcPlace.mp hg)
  constructor
  · intro hr
    have := hw.symm.trans (hex.inside_holds (.inl hr))
    simp at this
  · intro hr
    have := hw.symm.trans (hex.inside_holds (.inr hr))
    simp at this

theorem WriterInv.locked_puts (h : WriterInv s) (hg : s.gc.holdsLock = true)
    (hr : (s.ops t).isRunning = true) (hl : (s.ops t).takesLock = true) : s.puts t = [] :=
  h.locked hg t hl (h.overlap hg t hr)

theorem TaskStep.of_quiet (h : WriterInv s) (hr : (s.ops t).isRunning = true)
    (hex : ∃ holder, RWLock.Exclusive s'.lock holder) (hgc : s'.gc = s.gc)
    (hpc : ∀ u, u ≠ some t → s'.lock.pc u = s.lock.pc u) (hops : ∀ u, u ≠ t → s'.ops u = s.ops u)
    (hputs : s'.puts = s.puts) (hover : s'.overlaps = s.overlaps) (hstore : s'.store = s.store)
    (hremoved : s'.removed = s.removed) (hlock : (s'.ops t).takesLock = (s.ops t).takesLock)
    (hplace : Place (s'.ops t) (s'.lock.pc (some t)) (s.puts t)) : TaskStep s s' t := by
  have hpresent (c : Bytes) (hc : s.Present c) : s'.Present c := by
    simpa only [Present, hstore, hremoved] using hc
  refine ⟨hex, hgc, hpc, hops, fun _ _ => by rw [hputs], fun _ _ => by rw [hover], hpresent,
    by rwa [hputs], ?_, ?_, ?_⟩
  · intro hg
    rw [hover]
    exact h.overlap hg t hr
  · intro hg hl
    rw [hputs]
    exact h.locked_puts hg hr (hlock ▸ hl)
  · intro c hc
    rw [hputs] at hc
    exact hpresent c (h.kept t (.inl hr) c hc)

variable [DecidableEq τ]

@[simp] theorem setOp_ops_self (s : Sys τ) (t : τ) (o : OpState) : (s.setOp t o).ops t = o :=
  Function.update_self ..

theorem setOp_ops_other (s : Sys τ) {t u : τ} (o : OpState) (hu : u ≠ t) :
    (s.setOp t o).ops u = s.ops u := Function.update_of_ne hu _ _

theorem OpState.takesLock_proceed (op : Op) (rest : List Instr) (failed : Bool) :
    (OpState.proceed op rest failed).takesLock = op.takesLock := by
  simp only [OpState.proceed]
  split_ifs <;> rfl

theorem call_taskStep {op : Op} (h : WriterInv s) (hstep : s.call t op = some s') : TaskStep s s' t := by
  simp only [call] at hstep
  split at hstep <;> try contradiction
  rename_i hidle
  obtain rfl := Option.some.inj hstep
  have hplace := h.place t
  rw [hidle] at hplace
  obtain ⟨hpc, hputs⟩ : s.lock.pc (some t) = .outside ∧ s.puts t = [] := by
    generalize s.lock.pc (some t) = pc, s.puts t = puts at hplace
    cases hplace
    exact ⟨rfl, rfl⟩
  refine ⟨h.exclusive, rfl, fun _ _ => rfl, fun u hu => Function.update_of_ne hu _ _, fun _ _ => rfl,
    fun u hu => Function.update_of_ne hu _ _, fun _ hc => hc, ?_, ?_, fun _ _ => hputs, ?_⟩
  · simp only [setOp, Function.update_self, hpc, hputs]
    cases op with
    | addNode c d => exact .entering (.inl rfl)
    | importCar blocks =>
      refine .unlocked rfl fun i hi a => ?_
      simp only [Op.program, List.mem_append, List.mem_map, List.mem_singleton] at hi
      rcases hi with ⟨b, -, rfl⟩ | rfl <;> simp [Instr.completesAt]
    | putBlock | fetchBlock | removeNode =>
      refine .unlocked rfl fun i hi a => ?_
      simp only [Op.program, List.mem_cons, List.not_mem_nil, or_false] at hi
      rcases hi with rfl | rfl | rfl <;> simp [Instr.completesAt]
  · intro hg
    simp [hg]
  · intro c hc
    simp [setOp, hputs] at hc

theorem lock_taskStep {a : RWLock.Act} (h : WriterInv s) (hstep : s.lockStep t a = some s') :
    TaskStep s s' t := by
  simp only [lockStep] at hstep
  split at hstep <;> try contradiction
  rename_i op i rest failed hop
  split at hstep <;> try contradiction
  rename_i pc hpc
  obtain ⟨l, hl, rfl⟩ := Option.map_eq_some_iff.mp hstep
  have hrun : (s.ops t).isRunning = true := by simp [hop, OpState.isRunning]
  have hseg := RWLock.step_cases hl
  have hmoves := RWLock.segment_moves hseg (by
    intro w
    constructor <;> rintro rfl <;> cases i <;> simp [Instr.completesAt] at hpc)
  obtain ⟨holder, hex⟩ := h.exclusive
  have hex' : ∃ holder, RWLock.Exclusive l holder := RWLock.exclusive_step hex hl (by
    rintro (rfl | rfl) <;> cases i <;> simp [Instr.completesAt] at hpc)
  have hpcs (u : Option τ) (hu : u ≠ some t) : l.pc u = s.lock.pc u := RWLock.segment_pc_other hseg hu
  have hplace := h.place t
  rw [hop] at hplace
  have hnext : Place (if l.pc (some t) = pc then .proceed op rest failed
      else .running op (i :: rest) failed) (l.pc (some t)) (s.puts t) := by
    generalize s.puts t = puts, s.lock.pc (some t) = p, l.pc (some t) = q at hplace hmoves
    cases hplace with
    | entering hp =>
      rcases hp with rfl | rfl | rfl <;> cases hmoves <;>
        simp only [Instr.completesAt, Option.some.injEq, reduceCtorEq] at hpc
      · subst hpc
        exact .entering (.inr (.inl rfl))
      · subst hpc
        exact .entering (.inr (.inr rfl))
      · subst hpc
        exact .inside
      · subst hpc
        exact .inside
    | inside => simp [Instr.completesAt] at hpc
    | leaving hp =>
      rcases hp with rfl | rfl <;> cases hmoves <;>
        simp only [Instr.completesAt, Option.some.injEq] at hpc
      · subst hpc
        exact .leaving (.inr rfl)
      · subst hpc
        cases failed
        · exact .returned
        · exact .raised
    | unlocked _ hrest => simp [hrest i (by simp) a] at hpc
  by_cases hq : l.pc (some t) = pc
  · rw [if_pos hq] at hnext ⊢
    exact TaskStep.of_quiet h hrun hex' rfl hpcs (fun u hu => setOp_ops_other s _ hu) rfl rfl rfl rfl
      (by simp only [setOp_ops_self, OpState.takesLock_proceed, hop]; rfl) (by simpa using hnext)
  · rw [if_neg hq] at hnext ⊢
    exact TaskStep.of_quiet h hrun hex' rfl hpcs (fun _ _ => rfl) rfl rfl rfl rfl rfl
      (by simpa [hop] using hnext)

theorem Place.next {op : Op} {i : Instr} {rest : List Instr} {failed : Bool} {pc : RWLock.Pc}
    {puts puts' : List Bytes} (h : Place (.running op (i :: rest) failed) pc puts)
    (hi : ∀ a, i.completesAt a = none) (failed' : Bool) :
    Place (.proceed op rest failed') pc puts' := by
  cases h with
  | entering => exact absurd (hi .enterRead) (by simp [Instr.completesAt])
  | leaving => exact absurd (hi .leave) (by simp [Instr.completesAt])
  | inside => exact .leaving (.inl rfl)
  | unlocked hop hrest =>
    simp only [OpState.proceed]
    split_ifs
    · exact .raised
    · exact .returned
    · exact .unlocked hop fun j hj => hrest j (by simp [hj])

theorem Place.unlocked_of {op : Op} {i : Instr} {rest : List Instr} {failed : Bool} {pc : RWLock.Pc}
    {puts : List Bytes} (h : Place (.running op (i :: rest) failed) pc puts)
    (hi : ∀ a, i.completesAt a = none) (hput : ∀ c d b, i ≠ .put c d b) :
    op.takesLock = false ∧ pc = .outside ∧ ∀ j ∈ rest, ∀ a, j.completesAt a = none := by
  cases h with
  | entering => exact absurd (hi .enterRead) (by simp [Instr.completesAt])
  | leaving => exact absurd (hi .leave) (by simp [Instr.completesAt])
  | inside => exact absurd rfl (hput _ _ _)
  | unlocked hop hrest => exact ⟨hop, rfl, fun j hj => hrest j (by simp [hj])⟩

theorem TaskStep.of_setOp {op : Op} {rest : List Instr} {failed : Bool} {o : OpState} (h : WriterInv s)
    (hop : s.ops t = .running op rest failed) (ho : o.takesLock = op.takesLock)
    (hplace : Place o (s.lock.pc (some t)) (s.puts t)) : TaskStep s (s.setOp t o) t := by
  refine TaskStep.of_quiet h (by simp [hop, OpState.isRunning]) h.exclusive rfl (fun _ _ => rfl)
    (fun u hu => setOp_ops_other s _ hu) rfl rfl rfl rfl (by rw [setOp_ops_self, ho, hop]; rfl) ?_
  simpa [setOp] using hplace

section Instructions

variable {op : Op} {rest : List Instr} {failed : Bool} {c d : Bytes} {b : Bool}

theorem put_taskStep (h : WriterInv s) (hop : s.ops t = .running op (.put c d b :: rest) failed) :
    TaskStep s { s.setOp t (.proceed op rest failed) with
      store := s.store.set c d, puts := Function.update s.puts t (c :: s.puts t) } t := by
  have hplace := h.place t
  rw [hop] at hplace
  have hrun : (s.ops t).isRunning = true := by simp [hop, OpState.isRunning]
  have hpresent (x : Bytes) (hx : s.Present x) : x ∈ (s.store.set c d).keys ∨ x ∈ s.removed :=
    hx.imp_left fun hx => (Dict.mem_keys_set ..).mpr (.inr hx)
  refine ⟨h.exclusive, rfl, fun _ _ => rfl, fun u hu => setOp_ops_other s _ hu,
    fun u hu => Function.update_of_ne hu _ _, fun _ _ => rfl, hpresent, ?_, ?_, ?_, ?_⟩
  · simp only [setOp_ops_self]
    exact hplace.next (by simp [Instr.completesAt]) failed
  · intro hg
    exact h.overlap hg t hrun
  · intro hg hl
    simp only [setOp_ops_self, OpState.takesLock_proceed] at hl
    have hnot := h.no_reader hg t
    generalize s.lock.pc (some t) = pc, s.puts t = puts at hplace hnot
    cases hplace with
    | inside => exact absurd rfl hnot.1
    | unlocked hop' => simp [hop'] at hl
  · intro x hx
    simp only [Function.update_self, List.mem_cons] at hx
    rcases hx with rfl | hx
    · exact .inl ((Dict.mem_keys_set ..).mpr (.inl rfl))
    · exact hpresent x (h.kept t (.inl hrun) x hx)

theorem getOrGoOn_taskStep (h : WriterInv s) (hop : s.ops t = .running op (.getOrGoOn c :: rest) failed) :
    TaskStep s (s.setOp t (.proceed op (if c ∈ s.store.keys then [.ret] else rest) failed)) t := by
  have hplace := h.place t
  rw [hop] at hplace
  obtain ⟨hop', hpc, hrest⟩ := hplace.unlocked_of (by simp [Instr.completesAt]) (by simp)
  apply TaskStep.of_setOp h hop (OpState.takesLock_proceed ..)
  have hnext : Place (.running op (.getOrGoOn c :: if c ∈ s.store.keys then [.ret] else rest) failed)
      .outside (s.puts t) := by
    refine .unlocked hop' fun j hj a => ?_
    rcases List.mem_cons.mp hj with rfl | hj
    · rfl
    · split_ifs at hj
      · obtain rfl := List.mem_singleton.mp hj
        rfl
      · exact hrest j hj a
  rw [hpc]
  exact hnext.next (by simp [Instr.completesAt]) failed

theorem delete_taskStep (h : WriterInv s) (hop : s.ops t = .running op (.delete c :: rest) failed) :
    TaskStep s { s.setOp t (.proceed op rest failed) with
      store := s.store.erase c, removed := c :: s.removed } t := by
  have hplace := h.place t
  rw [hop] at hplace
  have hrun : (s.ops t).isRunning = true := by simp [hop, OpState.isRunning]
  have hpresent (x : Bytes) (hx : s.Present x) :
      x ∈ (s.store.erase c).keys ∨ x ∈ c :: s.removed := by
    by_cases hxc : x = c
    · exact .inr (by simp [hxc])
    · exact hx.imp (fun hx => (Dict.mem_keys_erase ..).mpr ⟨hxc, hx⟩) (List.mem_cons_of_mem _)
  refine ⟨h.exclusive, rfl, fun _ _ => rfl, fun u hu => setOp_ops_other s _ hu, fun _ _ => rfl,
    fun _ _ => rfl, hpresent, ?_, fun hg => h.overlap hg t hrun, ?_,
    fun x hx => hpresent x (h.kept t (.inl hrun) x hx)⟩
  · simp only [setOp_ops_self]
    exact hplace.next (by simp [Instr.completesAt]) failed
  · intro hg hl
    simp only [setOp_ops_self, OpState.takesLock_proceed] at hl
    apply h.locked_puts hg hrun
    rw [hop]
    exact hl

theorem ret_taskStep (h : WriterInv s) (hop : s.ops t = .running op (.ret :: rest) failed) :
    TaskStep s (s.setOp t (.returned op)) t := by
  have hplace := h.place t
  rw [hop] at hplace
  obtain ⟨-, hpc, -⟩ := hplace.unlocked_of (by simp [Instr.completesAt]) (by simp)
  apply TaskStep.of_setOp h hop rfl
  rw [hpc]
  exact .returned

end Instructions

theorem run_taskStep (h : WriterInv s) (hstep : s.run t = some s') : TaskStep s s' t := by
  simp only [run] at hstep
  split at hstep <;> try contradiction
  · rename_i hop
    obtain rfl := Option.some.inj hstep
    exact put_taskStep h hop
  · rename_i hop
    obtain rfl := Option.some.inj hstep
    exact getOrGoOn_taskStep h hop
  · rename_i hop
    obtain rfl := Option.some.inj hstep
    exact delete_taskStep h hop
  · rename_i hop
    obtain rfl := Option.some.inj hstep
    exact ret_taskStep h hop

theorem Place.abandoned {op : Op} {i : Instr} {rest : List Instr} {failed : Bool} {pc : RWLock.Pc}
    {puts : List Bytes} (h : Place (.running op (i :: rest) failed) pc puts)
    (hi : ∀ a, i.completesAt a = none) (hop : op.takesLock = false) : Place (.raised op) pc puts := by
  cases h with
  | entering => exact absurd (hi .enterRead) (by simp [Instr.completesAt])
  | leaving => exact absurd (hi .leave) (by simp [Instr.completesAt])
  | inside => simp [Op.takesLock] at hop
  | unlocked => exact .raised

theorem fail_taskStep (h : WriterInv s) (hstep : s.fail t = some s') : TaskStep s s' t := by
  have hplace := h.place t
  simp only [fail] at hstep
  split at hstep <;> try contradiction
  · rename_i op c d b rest failed hop
    rw [hop] at hplace
    split_ifs at hstep with hb hl <;> obtain rfl := Option.some.inj hstep
    · apply TaskStep.of_setOp h hop (OpState.takesLock_proceed ..)
      exact hplace.next (by simp [Instr.completesAt]) _
    · apply TaskStep.of_setOp h hop (OpState.takesLock_proceed ..)
      exact hplace.next (by simp [Instr.completesAt]) _
    · apply TaskStep.of_setOp h hop rfl
      exact hplace.abandoned (by simp [Instr.completesAt]) (by simpa using hl)
  all_goals
    rename_i hop
    rw [hop] at hplace
    obtain rfl := Option.some.inj hstep
    apply TaskStep.of_setOp h hop rfl
    exact hplace.abandoned (by simp [Instr.completesAt])
      (hplace.unlocked_of (by simp [Instr.completesAt]) (by simp)).1

def Event.task : Event τ → Option τ
  | .call t _ | .lock t _ | .run t | .fail t => some t
  | _ => none

theorem task_step {e : Event τ} (h : WriterInv s) (hstep : Step lib s e s') (he : e.task = some t) :
    TaskStep s s' t := by
  cases e with
  | call u op => obtain rfl := Option.some.inj he; exact call_taskStep h hstep
  | lock u a => obtain rfl := Option.some.inj he; exact lock_taskStep h hstep
  | run u => obtain rfl := Option.some.inj he; exact run_taskStep h hstep
  | fail u => obtain rfl := Option.some.inj he; exact fail_taskStep h hstep
  | _ => simp [Event.task] at he

/-- No block that an operation in progress during the run of `gc` has put without the read lock is
among those that `gc` has still to delete. -/
def Clear (lib : DagLib) (s : Sys τ) : Prop :=
  ∀ t, s.overlaps t = true → (s.ops t).takesLock = false → ∀ c ∈ s.puts t,
    ∀ x ∈ s.gc.toDelete, pinRoot lib x ≠ .ok c

def ClearStep (lib : DagLib) (s : Sys τ) (e : Event τ) (s' : Sys τ) : Prop := Step lib s e s' ∧ Clear lib s

omit [DecidableEq τ] in
theorem WriterInv.of_gc (h : WriterInv s) (hops : s'.ops = s.ops) (hputs : s'.puts = s.puts)
    (hover : s'.overlaps = s.overlaps) (hpcs : ∀ t, s'.lock.pc (some t) = s.lock.pc (some t))
    (hex : ∃ holder, RWLock.Exclusive s'.lock holder)
    (hgc : s'.gc.holdsLock = true ↔ s'.lock.pc none = .writing)
    (hold : s'.gc.holdsLock = true → s.gc.holdsLock = true)
    (hkept : ∀ t, (s.ops t).isRunning = true ∨ s.overlaps t = true → ∀ c ∈ s.puts t, s'.Present c) :
    WriterInv s' := by
  refine ⟨hex, hgc, ?_, ?_, ?_, ?_⟩
  · intro t
    rw [hops, hputs, hpcs]
    exact h.place t
  · intro hg t
    rw [hops, hover]
    exact h.overlap (hold hg) t
  · intro hg t
    rw [hops, hover, hputs]
    exact h.locked (hold hg) t
  · intro t
    rw [hops, hover, hputs]
    exact hkept t

theorem WriterInv.leave {p : Phase} {l : RWLock.State (Option τ)} (h : WriterInv s) (hp : p.holdsLock = false)
    (hl : RWLock.step s.lock none .leave = some l) : WriterInv { s with lock := l, gc := p } := by
  obtain ⟨holder, hex⟩ := h.exclusive
  have hseg := RWLock.step_cases hl
  have hmoves := RWLock.segment_moves hseg (by simp)
  refine h.of_gc rfl rfl rfl (fun t => RWLock.segment_pc_other hseg (by simp))
    (RWLock.exclusive_step hex hl (by simp [RWLock.CancelsEntry])) ?_ (by simp [hp]) h.kept
  simp only [hp, Bool.false_eq_true, false_iff]
  intro hw
  rw [hw] at hmoves
  generalize s.lock.pc none = p at hmoves
  cases hmoves

theorem WriterInv.gcLock {a : RWLock.Act} (h : WriterInv s) (hstep : s.gcLock a = some s') :
    WriterInv s' := by
  obtain ⟨hg, ha, l, hl, hs'⟩ := gcLock_cases hstep
  obtain ⟨holder, hex⟩ := h.exclusive
  have hex' : ∃ holder, RWLock.Exclusive l holder :=
    RWLock.exclusive_step hex hl (by rcases ha with rfl | rfl <;> simp [RWLock.CancelsEntry])
  have hpcs (t : τ) : l.pc (some t) = s.lock.pc (some t) :=
    RWLock.segment_pc_other (RWLock.step_cases hl) (by simp)
  obtain ⟨hw, rfl⟩ | ⟨hw, rfl⟩ := hs'
  · have hplace (t : τ) : Place (s.ops t) (l.pc (some t)) (s.puts t) := by
      rw [hpcs]
      exact h.place t
    refine ⟨hex', by simp [hw, Phase.holdsLock], hplace, fun _ t hr => hr, ?_,
      fun t ht c hc => h.kept t (.inl (by simpa using ht)) c hc⟩
    intro _ t hlock hrun
    obtain ⟨holder', hx⟩ := hex'
    have hwriter := hx.writing_holds hw
    refine ((hplace t).takesLock_reading hrun hlock).resolve_right fun hr => ?_
    have := hwriter.symm.trans (hx.inside_holds hr)
    simp at this
  · exact h.of_gc rfl rfl rfl hpcs hex' (by simp [hg, Phase.holdsLock, hw]) (fun hl => hl) h.kept

theorem WriterInv.gcMove {fails : Option PyError} (h : WriterInv s) (hclear : Clear lib s)
    (hmove : GcMove lib fails s s') : WriterInv s' := by
  have stay (p : Phase) (hp : p.holdsLock = true) (hs : s.gc.holdsLock = true) :
      WriterInv { s with gc := p } :=
    h.of_gc rfl rfl rfl (fun _ => rfl) h.exclusive (by simpa [hp, hs] using h.gcPlace) (fun _ => hs) h.kept
  cases hmove with
  | list hg => exact stay _ rfl (by rw [hg]; rfl)
  | copy hg => exact stay _ (nextPin_holdsLock ..) (by rw [hg]; rfl)
  | mark hg => exact stay _ (resume_holdsLock ..) (by rw [hg]; rfl)
  | finish _ hl | listRaises _ _ hl | deleteRaises _ _ _ hl => exact h.leave rfl hl
  | @delete x cid _ _ _ hg hx hcid =>
    have hholds : s.gc.holdsLock = true := by rw [hg]; rfl
    refine h.of_gc rfl rfl rfl (fun _ => rfl) h.exclusive ?_ (fun _ => hholds) ?_
    · exact ⟨fun _ => h.gcPlace.mp hholds, fun _ => rfl⟩
    · intro t ht c hc
      have ho : s.overlaps t = true := ht.elim (h.overlap hholds t) id
      have hne : c ≠ cid := by
        rintro rfl
        cases hl : (s.ops t).takesLock with
        | true => simp [h.locked hholds t hl ho] at hc
        | false => exact hclear t ho hl c hc x (by rw [hg]; exact hx) hcid
      exact (h.kept t ht c hc).imp_left fun hk => (Dict.mem_keys_erase ..).mpr ⟨hne, hk⟩

theorem WriterInv.step {e : Event τ} (h : WriterInv s) (hstep : ClearStep lib s e s') : WriterInv s' := by
  obtain ⟨hstep, hclear⟩ := hstep
  cases e with
  | call t | lock t | run t | fail t => exact (task_step h hstep rfl).inv h
  | gcLock a => exact h.gcLock hstep
  | gcRun fails => exact h.gcMove hclear (gcRun_move hstep)
  | gcDelete x fails => exact h.gcMove hclear (gcDelete_move hstep)
  | addPin cidStr pinType io =>
    obtain rfl := Option.some.inj hstep
    exact h.of_gc rfl rfl rfl (fun _ => rfl) h.exclusive h.gcPlace (fun hg => hg) h.kept

omit [DecidableEq τ] in
theorem writerInv_initial (store : Store) (world : World) :
    WriterInv (Sys.initial store world : Sys τ) := by
  refine ⟨⟨_, RWLock.exclusive_initial⟩, ?_, fun _ => .idle, ?_, ?_, ?_⟩ <;>
    simp [Sys.initial, Phase.holdsLock, RWLock.State.initial, OpState.isRunning]

theorem writerInv_run {store : Store} {world : World} {es : List (Event τ)}
    (h : Run (ClearStep lib) (Sys.initial store world) es s) : WriterInv s :=
  h.invariant (P := WriterInv) (fun _ _ _ hu hstep => hu.step hstep) (writerInv_initial store world)

theorem ops_other {e : Event τ} (hstep : Step lib s e s') (he : e.task = none) : s'.ops = s.ops := by
  cases e with
  | gcLock a => exact (gcLock_frame hstep).1
  | gcRun fails => exact (gcRun_move hstep).frame.1
  | gcDelete x fails => exact (gcDelete_move hstep).frame.1
  | addPin => exact Option.some.inj hstep ▸ rfl
  | _ => simp [Event.task] at he

def KeepsPuts (s s' : Sys τ) : Prop :=
  (∀ t op, s.ops t ≠ .returned op → s'.ops t = .returned op → ∀ c ∈ s'.puts t, s'.Present c) ∧
    ∀ r, s'.gc = .returned r → ∀ t, s'.overlaps t = true → ∀ c ∈ s'.puts t, s'.Present c

theorem keepsPuts_of_clear {store : Store} {world : World} {es : List (Event τ)} {e : Event τ}
    (hrun : Run (ClearStep lib) (Sys.initial store world) es s) (hstep : ClearStep lib s e s') :
    KeepsPuts s s' := by
  have h := writerInv_run hrun
  refine ⟨fun t op hbefore hafter c hc => ?_, fun _ _ t ho c hc => (h.step hstep).kept t (.inr ho) c hc⟩
  cases he : e.task with
  | none =>
    rw [ops_other hstep.1 he] at hafter
    exact absurd hafter hbefore
  | some u =>
    have hu := task_step h hstep.1 he
    by_cases htu : t = u
    · subst htu
      exact hu.kept c hc
    · rw [hu.ops t htu] at hafter
      exact absurd hafter hbefore

instance [Fintype τ] (lib : DagLib) (s : Sys τ) : Decidable (Clear lib s) :=
  inferInstanceAs (Decidable (∀ t, s.overlaps t = true → (s.ops t).takesLock = false → ∀ c ∈ s.puts t,
    ∀ x ∈ s.gc.toDelete, pinRoot lib x ≠ .ok c))

def clearStep (lib : DagLib) [Fintype τ] (s : Sys τ) (e : Event τ) : Option (Sys τ) :=
  if Clear lib s then s.step lib e else none

theorem clearStep_some [Fintype τ] {e : Event τ} (h : clearStep lib s e = some s') :
    ClearStep lib s e s' := by
  simp only [clearStep] at h
  split_ifs at h with hc
  exact ⟨h, hc⟩

/-- `add_node` is called while `gc` runs, waits for it, and then puts its block. -/
def waitingAddNode : List (Event (Fin 1)) :=
  [.gcLock .enterWrite, .gcLock .resume, .gcRun none, .call 0 (.addNode KnownCid.rawB.bytes [98]),
    .lock 0 .enterRead, .lock 0 .resume, .gcRun none, .gcDelete KnownCid.rawA.str none, .gcRun none,
    .lock 0 .resume, .run 0, .lock 0 .leave]

def isReturned (o : OpState) : Bool :=
  match o with
  | .returned _ => true
  | _ => false

theorem keepsPuts_waiting_addNode : ∃ s s' : Sys (Fin 1), s.puts 0 = [KnownCid.rawB.bytes] ∧
    s.overlaps 0 = true ∧ isReturned (s.ops 0) = false ∧ isReturned (s'.ops 0) = true ∧ KeepsPuts s s' := by
  let s : Sys (Fin 1) :=
    stateAfter (clearStep rawDagLib) (Sys.initial storeA noPins) waitingAddNode (by decide)
  have hrun : Run (ClearStep rawDagLib) (Sys.initial storeA noPins) waitingAddNode s :=
    (run_stateAfter _ _ _ _).mono fun _ _ _ h => clearStep_some h
  obtain ⟨s', hstep, hreturned⟩ := (Option.any_eq_true _ _).mp
    (show (clearStep rawDagLib s (.lock 0 .resume)).any (fun s' => isReturned (s'.ops 0)) = true by decide)
  exact ⟨s, s', by decide, by decide, by decide, hreturned,
    keepsPuts_of_clear hrun (clearStep_some hstep)⟩

/-- `put_block` puts again, without the lock, an unpinned block that `gc` has already listed. -/
def putAgain : List (Event (Fin 1)) :=
  [.gcLock .enterWrite, .gcLock .resume, .gcRun none, .call 0 (.putBlock KnownCid.rawA.bytes [97]), .run 0,
    .run 0, .gcRun none, .gcDelete KnownCid.rawA.str none]

theorem keepsPuts_fails : ¬∀ (store : Store) (world : World) (es : List (Event (Fin 1))) (e : Event (Fin 1))
    (s s' : Sys (Fin 1)), Run (Step rawDagLib) (Sys.initial store world) es s → Step rawDagLib s e s' →
    KeepsPuts s s' := by
  intro hall
  let s : Sys (Fin 1) :=
    stateAfter (step rawDagLib) (Sys.initial storeA noPins) putAgain (by decide)
  have hrun : Run (Step rawDagLib) (Sys.initial storeA noPins) putAgain s := run_stateAfter _ _ _ _
  obtain ⟨s', hstep, hend⟩ := (Option.any_eq_true _ _).mp
    (show (step rawDagLib s (.gcRun none)).any (fun s' => s'.gc.result?.isSome && s'.overlaps 0 &&
      decide (KnownCid.rawA.bytes ∈ s'.puts 0 ∧ ¬s'.Present KnownCid.rawA.bytes)) = true by decide)
  simp only [Bool.and_eq_true, decide_eq_true_eq] at hend
  obtain ⟨⟨hresult, ho⟩, hput, hlost⟩ := hend
  obtain ⟨r, hr⟩ := Phase.result?_isSome hresult
  exact hlost ((hall _ _ _ _ _ _ hrun hstep).2 r hr 0 ho _ hput)

end Sys

end IpfsLite
