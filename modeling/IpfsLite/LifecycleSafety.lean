import IpfsLite.Lifecycle

namespace IpfsLite.Lifecycle

open Runs

variable {c : Config} {s u v : Sys} {id : ℕ}

def Settled (s : Sys) : Prop := s.calls.keys = [] → s.state = .running ∨ s.state = .stopped

def Waits (s : Sys) : Prop :=
  ∃ id isRunning n nursery, s.calls.get? id = some (.exiting isRunning n) ∧
    s.nurseries[n]? = some nursery ∧ nursery.tasks ≠ 0 ∧ nursery.cancelled = false

def StartsUncancelled : Event → Prop
  | .bodyStep _ o => o ≠ .cancelled
  | _ => True

/-- The exit stack leaves a nursery that has no children or is cancelled. -/
def LeavesCancelled (u : Sys) : Event → Prop
  | .exitContext _ => ∀ n rest nursery, u.exitStack = .nursery n :: rest → u.nurseries[n]? = some nursery →
      nursery.tasks = 0 ∨ nursery.cancelled = true
  | _ => True

inductive StepCase (c : Config) (s : Sys) : Event → Sys → Prop
  | ignored (id : ℕ) : StepCase c s (.startCall id) s
  | started (id : ℕ) :
    StepCase c s (.startCall id) ({ s with state := .starting }.setCall id (.body (startBody c)))
  | body {id : ℕ} {rest : List StartStep} {o : Outcome} {v : Sys}
    (hcall : s.calls.get? id = some (.body rest)) (hs : s.bodyStep c id rest o = some v) :
    StepCase c s (.bodyStep id o) v
  | closes {id : ℕ} (hid : id ∉ s.calls.keys) : StepCase c s (.closeCall id) (s.enterClose id)
  | exitsContext {id : ℕ} {isRunning : Bool} {v : Sys} (hcall : s.calls.get? id = some (.unwinding isRunning))
    (hs : s.exitContext id isRunning = some v) : StepCase c s (.exitContext id) v
  | exitCancelled (id n : ℕ) : StepCase c s (.exitCancelled id) (s.modifyNursery n (·.cancel))
  | exited {id n : ℕ} {isRunning : Bool} (hcall : s.calls.get? id = some (.exiting isRunning n)) :
    StepCase c s (.exited id) ((s.modifyNursery n (·.close)).setCall id (.unwinding isRunning))
  | unwound {id : ℕ} {isRunning : Bool} {o : Outcome} {v : Sys}
    (hcall : s.calls.get? id = some (.unwinding isRunning)) (hs : s.unwound id isRunning o = some v) :
    StepCase c s (.unwound id o) v
  | stops {id : ℕ} {rest : List StopStep} {o : Outcome} (hcall : s.calls.get? id = some (.stopping rest)) :
    StepCase c s (.stopStep id o) (s.stopStep id rest o)
  | spawns (n : ℕ) : StepCase c s (.spawn n) (s.modifyNursery n (·.startSoon 1))
  | ends (n : ℕ) : StepCase c s (.taskEnds n) (s.modifyNursery n (·.taskEnds))

theorem step_cases {e : Event} (hs : step c s e = some v) : StepCase c s e v := by
  cases e with
  | startCall id =>
    simp only [step] at hs
    split_ifs at hs <;> obtain rfl := Option.some.inj hs
    · exact .ignored id
    · exact .started id
  | bodyStep id o =>
    simp only [step] at hs
    split at hs
    · next rest hcall => exact .body hcall hs
    · contradiction
  | closeCall id =>
    simp only [step] at hs
    split_ifs at hs with hid
    obtain rfl := Option.some.inj hs
    exact .closes hid
  | exitContext id =>
    simp only [step] at hs
    split at hs
    · next isRunning hcall => exact .exitsContext hcall hs
    · contradiction
  | exitCancelled id =>
    simp only [step] at hs
    split at hs
    · next isRunning n hcall =>
      obtain rfl := Option.some.inj hs
      exact .exitCancelled id n
    · contradiction
  | exited id =>
    simp only [step] at hs
    split at hs
    · next isRunning n hcall =>
      split_ifs at hs
      obtain rfl := Option.some.inj hs
      exact .exited hcall
    · contradiction
  | unwound id o =>
    simp only [step] at hs
    split at hs
    · next isRunning hcall => exact .unwound hcall hs
    · contradiction
  | stopStep id o =>
    simp only [step] at hs
    split at hs
    · next rest hcall =>
      obtain rfl := Option.some.inj hs
      exact .stops hcall
    · contradiction
  | spawn n =>
    simp only [step] at hs
    split_ifs at hs
    obtain rfl := Option.some.inj hs
    exact .spawns n
  | taskEnds n =>
    simp only [step] at hs
    split_ifs at hs
    obtain rfl := Option.some.inj hs
    exact .ends n

structure Covered (state : PeerState) (calls : Dict ℕ Phase) : Prop where
  starting : state = .starting → ∃ id p, calls.get? id = some p ∧ p.isBody = true
  stopping : state = .stopping → ∃ id p, calls.get? id = some p ∧ p.isBody = false

namespace Covered

variable {state : PeerState} {calls : Dict ℕ Phase} {p q : Phase}

theorem set (h : Covered state calls) (hp : calls.get? id = some p) (hq : q.isBody = p.isBody) :
    Covered state (calls.set id q) := by
  have hkeep : ∀ b, (∃ id p, calls.get? id = some p ∧ p.isBody = b) →
      ∃ id' p, (calls.set id q).get? id' = some p ∧ p.isBody = b := by
    rintro b ⟨id', p', hp', hb⟩
    by_cases hid : id' = id
    · subst hid
      rw [hp] at hp'
      obtain rfl := Option.some.inj hp'
      exact ⟨id', q, by simp, hq.trans hb⟩
    · exact ⟨id', p', by simp [hid, hp'], hb⟩
  exact ⟨fun hs => hkeep _ (h.starting hs), fun hs => hkeep _ (h.stopping hs)⟩

theorem erase_body (h : Covered state calls) (hstate : state ≠ .starting)
    (hp : ∀ p, calls.get? id = some p → p.isBody = true) : Covered state (calls.erase id) := by
  refine ⟨fun hs => absurd hs hstate, fun hs => ?_⟩
  obtain ⟨id', p', hp', hb⟩ := h.stopping hs
  have hid : id' ≠ id := by
    rintro rfl
    rw [hp p' hp'] at hb
    contradiction
  exact ⟨id', p', by simp [hid, hp'], hb⟩

theorem of_rests (h : state = .running ∨ state = .stopped) : Covered state calls := by
  rcases h with rfl | rfl <;> constructor <;> simp

theorem of_starting (hp : p.isBody = true) : Covered .starting (calls.set id p) :=
  ⟨fun _ => ⟨id, p, by simp, hp⟩, by simp⟩

theorem of_stopping (hp : p.isBody = false) : Covered .stopping (calls.set id p) :=
  ⟨by simp, fun _ => ⟨id, p, by simp, hp⟩⟩

theorem settled (h : Covered s.state s.calls) : Settled s := by
  intro hnone
  have habsent : ∀ id p, s.calls.get? id ≠ some p := by
    intro id p hp
    have hmem := Dict.mem_keys.mpr ⟨p, hp⟩
    rw [hnone] at hmem
    contradiction
  cases hstate : s.state with
  | running => exact .inl rfl
  | stopped => exact .inr rfl
  | starting =>
    obtain ⟨id, p, hp, -⟩ := h.starting hstate
    exact absurd hp (habsent id p)
  | stopping =>
    obtain ⟨id, p, hp, -⟩ := h.stopping hstate
    exact absurd hp (habsent id p)

end Covered

theorem enterClose_covered (h : Covered s.state s.calls) (hp : ∀ p, s.calls.get? id = some p → p.isBody = true) :
    Covered (s.enterClose id).state (s.enterClose id).calls := by
  unfold Sys.enterClose
  split_ifs with hstate
  · apply h.erase_body _ hp
    intro hs
    rw [hs] at hstate
    simp at hstate
  · exact .of_stopping rfl

theorem modifyOwnNursery_frame (s : Sys) (f : Nursery → Nursery) :
    (s.modifyOwnNursery f).state = s.state ∧ (s.modifyOwnNursery f).calls = s.calls := by
  unfold Sys.modifyOwnNursery
  split <;> exact ⟨rfl, rfl⟩

theorem perform_frame (c : Config) (s : Sys) (step : StartStep) :
    (s.perform c step).state = s.state ∧ (s.perform c step).calls = s.calls := by
  cases step
  case spawnReprovider => exact modifyOwnNursery_frame _ _
  case spawnLoops => exact modifyOwnNursery_frame _ _
  all_goals exact ⟨rfl, rfl⟩

theorem bodyStep_covered {rest : List StartStep} {o : Outcome} (h : Covered s.state s.calls)
    (hcall : s.calls.get? id = some (.body rest)) (ho : o ≠ .cancelled)
    (hs : s.bodyStep c id rest o = some v) : Covered v.state v.calls := by
  cases rest with
  | nil =>
    cases o with
    | ok =>
      obtain rfl := Option.some.inj hs
      exact .of_rests (.inl rfl)
    | raises => contradiction
    | cancelled => contradiction
  | cons step rest =>
    simp only [Sys.bodyStep] at hs
    split_ifs at hs
    cases o with
    | ok =>
      obtain rfl := Option.some.inj hs
      obtain ⟨hstate, hcalls⟩ := perform_frame c s step
      change Covered (s.perform c step).state ((s.perform c step).calls.set id (.body rest))
      rw [hstate, hcalls]
      exact h.set hcall rfl
    | raises =>
      obtain rfl := Option.some.inj hs
      apply enterClose_covered h
      intro p hp
      rw [hcall] at hp
      obtain rfl := Option.some.inj hp
      rfl
    | cancelled => contradiction

theorem exitContext_covered {isRunning : Bool} (h : Covered s.state s.calls)
    (hcall : s.calls.get? id = some (.unwinding isRunning)) (hs : s.exitContext id isRunning = some v) :
    Covered v.state v.calls := by
  unfold Sys.exitContext at hs
  split at hs
  · contradiction
  · obtain rfl := Option.some.inj hs
    exact h
  · split at hs
    · contradiction
    · dsimp only at hs
      split_ifs at hs
      · obtain rfl := Option.some.inj hs
        exact h
      · obtain rfl := Option.some.inj hs
        exact h.set hcall rfl

theorem unwound_covered {isRunning : Bool} {o : Outcome} (h : Covered s.state s.calls)
    (hcall : s.calls.get? id = some (.unwinding isRunning)) (hs : s.unwound id isRunning o = some v) :
    Covered v.state v.calls := by
  obtain ⟨hstate, hcalls⟩ := modifyOwnNursery_frame s (·.cancel)
  unfold Sys.unwound at hs
  dsimp only at hs
  split_ifs at hs
  · obtain rfl := Option.some.inj hs
    exact .of_rests (.inr rfl)
  · obtain rfl := Option.some.inj hs
    change Covered (s.modifyOwnNursery (·.cancel)).state ((s.modifyOwnNursery (·.cancel)).calls.set id _)
    rw [hstate, hcalls]
    exact h.set hcall rfl
  · obtain rfl := Option.some.inj hs
    exact .of_rests (.inr rfl)

theorem step_covered {e : Event} (h : Covered s.state s.calls) (hs : step c s e = some v)
    (he : StartsUncancelled e) : Covered v.state v.calls := by
  cases step_cases hs with
  | ignored => exact h
  | started id => exact .of_starting rfl
  | body hcall hs => exact bodyStep_covered h hcall he hs
  | closes hid =>
    apply enterClose_covered h
    intro p hp
    exact absurd (Dict.mem_keys.mpr ⟨p, hp⟩) hid
  | exitsContext hcall hs => exact exitContext_covered h hcall hs
  | exitCancelled => exact h
  | exited hcall => exact h.set hcall rfl
  | unwound hcall hs => exact unwound_covered h hcall hs
  | stops hcall =>
    unfold Sys.stopStep
    split
    · exact h.set hcall rfl
    · exact .of_rests (.inr rfl)
  | spawns => exact h
  | ends => exact h

def IsCancelled (nurseries : List Nursery) (n : ℕ) : Prop :=
  ∃ nursery, nurseries[n]? = some nursery ∧ nursery.cancelled = true

theorem IsCancelled.modify {nurseries : List Nursery} {n : ℕ} (h : IsCancelled nurseries n) (m : ℕ)
    {f : Nursery → Nursery} (hf : ∀ x, x.cancelled = true → (f x).cancelled = true) :
    IsCancelled (nurseries.modify m f) n := by
  obtain ⟨nursery, hn, hc⟩ := h
  by_cases hm : m = n
  · subst hm
    exact ⟨f nursery, by simp [hn], hf nursery hc⟩
  · exact ⟨nursery, by simp [hm, hn], hc⟩

theorem IsCancelled.append {nurseries : List Nursery} {n : ℕ} (h : IsCancelled nurseries n) (x : Nursery) :
    IsCancelled (nurseries ++ [x]) n := by
  obtain ⟨nursery, hn, hc⟩ := h
  refine ⟨nursery, ?_, hc⟩
  rw [List.getElem?_append_left (List.getElem?_eq_some_iff.mp hn).1]
  exact hn

def ExitsCancelled (calls : Dict ℕ Phase) (nurseries : List Nursery) : Prop :=
  ∀ id isRunning n, calls.get? id = some (.exiting isRunning n) → IsCancelled nurseries n

namespace ExitsCancelled

variable {calls : Dict ℕ Phase} {nurseries : List Nursery}

theorem not_waits (h : ExitsCancelled s.calls s.nurseries) : ¬Waits s := by
  rintro ⟨id, isRunning, n, nursery, hcall, hn, -, hc⟩
  obtain ⟨nursery', hn', hc'⟩ := h id isRunning n hcall
  rw [hn] at hn'
  obtain rfl := Option.some.inj hn'
  rw [hc] at hc'
  contradiction

theorem set (h : ExitsCancelled calls nurseries) {p : Phase}
    (hp : ∀ isRunning n, p = .exiting isRunning n → IsCancelled nurseries n) :
    ExitsCancelled (calls.set id p) nurseries := by
  intro id' isRunning n hcall
  rw [Dict.get?_set] at hcall
  split_ifs at hcall with hid
  · exact hp isRunning n (Option.some.inj hcall)
  · exact h id' isRunning n hcall

theorem erase (h : ExitsCancelled calls nurseries) : ExitsCancelled (calls.erase id) nurseries := by
  intro id' isRunning n hcall
  rw [Dict.get?_erase] at hcall
  split_ifs at hcall with hid
  exact h id' isRunning n hcall

theorem modify (h : ExitsCancelled calls nurseries) (m : ℕ) {f : Nursery → Nursery}
    (hf : ∀ x, x.cancelled = true → (f x).cancelled = true) :
    ExitsCancelled calls (nurseries.modify m f) :=
  fun id isRunning n hcall => (h id isRunning n hcall).modify m hf

theorem modifyOwn (h : ExitsCancelled s.calls s.nurseries) {f : Nursery → Nursery}
    (hf : ∀ x, x.cancelled = true → (f x).cancelled = true) :
    ExitsCancelled (s.modifyOwnNursery f).calls (s.modifyOwnNursery f).nurseries := by
  unfold Sys.modifyOwnNursery
  split
  · exact h
  · exact h.modify _ hf

theorem perform (h : ExitsCancelled s.calls s.nurseries) (step : StartStep) :
    ExitsCancelled (s.perform c step).calls (s.perform c step).nurseries := by
  cases step
  case openNursery => exact fun id isRunning n hcall => (h id isRunning n hcall).append _
  case spawnReprovider => exact h.modifyOwn fun x hx => hx
  case spawnLoops => exact h.modifyOwn fun x hx => hx
  all_goals exact h

end ExitsCancelled

theorem enterClose_exits (h : ExitsCancelled s.calls s.nurseries) (id : ℕ) :
    ExitsCancelled (s.enterClose id).calls (s.enterClose id).nurseries := by
  unfold Sys.enterClose
  split_ifs
  · exact h.erase
  · exact h.set (by simp)

theorem exitContext_exits {isRunning : Bool} (h : ExitsCancelled s.calls s.nurseries)
    (hs : s.exitContext id isRunning = some v) (hleave : LeavesCancelled s (.exitContext id)) :
    ExitsCancelled v.calls v.nurseries := by
  unfold Sys.exitContext at hs
  split at hs
  · contradiction
  · obtain rfl := Option.some.inj hs
    exact h
  · next n rest hstack =>
    split at hs
    · contradiction
    · next nursery hn =>
      dsimp only at hs
      split_ifs at hs with htasks
      · obtain rfl := Option.some.inj hs
        exact h.modify _ fun x hx => hx
      · obtain rfl := Option.some.inj hs
        apply h.set
        rintro isRunning' n' he
        obtain ⟨-, rfl⟩ := Phase.exiting.inj he
        exact ⟨nursery, hn, (hleave n rest nursery hstack hn).resolve_left htasks⟩

theorem exitContext_waits {isRunning : Bool} (hs : s.exitContext id isRunning = some v)
    (hleave : ¬LeavesCancelled s (.exitContext id)) : Waits v := by
  simp only [LeavesCancelled, not_forall, not_or, Bool.not_eq_true] at hleave
  obtain ⟨n, rest, nursery, hstack, hn, htasks, hc⟩ := hleave
  simp only [Sys.exitContext, hstack, hn, if_neg htasks, Option.some.injEq] at hs
  subst hs
  exact ⟨id, isRunning, n, nursery, by simp [Sys.setCall], hn, htasks, hc⟩

theorem bodyStep_exits {rest : List StartStep} {o : Outcome} (h : ExitsCancelled s.calls s.nurseries)
    (hs : s.bodyStep c id rest o = some v) : ExitsCancelled v.calls v.nurseries := by
  cases rest with
  | nil =>
    cases o with
    | ok =>
      obtain rfl := Option.some.inj hs
      exact h.erase
    | raises => contradiction
    | cancelled => contradiction
  | cons step rest =>
    simp only [Sys.bodyStep] at hs
    split_ifs at hs
    cases o with
    | ok =>
      obtain rfl := Option.some.inj hs
      exact (h.perform step).set (by simp)
    | raises =>
      obtain rfl := Option.some.inj hs
      exact enterClose_exits h id
    | cancelled =>
      obtain rfl := Option.some.inj hs
      exact h.erase

theorem unwound_exits {isRunning : Bool} {o : Outcome} (h : ExitsCancelled s.calls s.nurseries)
    (hs : s.unwound id isRunning o = some v) : ExitsCancelled v.calls v.nurseries := by
  have hown : ExitsCancelled (s.modifyOwnNursery (·.cancel)).calls (s.modifyOwnNursery (·.cancel)).nurseries :=
    h.modifyOwn fun x hx => rfl
  unfold Sys.unwound at hs
  dsimp only at hs
  split_ifs at hs <;> obtain rfl := Option.some.inj hs
  · exact h.erase
  · exact hown.set (by simp)
  · exact hown.erase

theorem step_exits {e : Event} (h : ExitsCancelled s.calls s.nurseries) (hs : step c s e = some v)
    (hleave : LeavesCancelled s e) : ExitsCancelled v.calls v.nurseries := by
  cases step_cases hs with
  | ignored => exact h
  | started id => exact h.set (by simp)
  | body hcall hs => exact bodyStep_exits h hs
  | closes hid => exact enterClose_exits h _
  | exitsContext hcall hs => exact exitContext_exits h hs hleave
  | exitCancelled => exact h.modify _ fun x hx => rfl
  | exited hcall => exact (h.modify _ (f := (·.close)) fun x hx => hx).set (by simp)
  | unwound hcall hs => exact unwound_exits h hs
  | stops hcall =>
    unfold Sys.stopStep
    split
    · exact h.set (by simp)
    · exact h.erase
  | spawns => exact h.modify _ fun x hx => hx
  | ends => exact h.modify _ fun x hx => hx

theorem step_waits_iff {e : Event} (h : ExitsCancelled s.calls s.nurseries) (hs : step c s e = some v) :
    ¬Waits v ↔ LeavesCancelled s e := by
  constructor
  · intro hwaits
    by_contra hleave
    cases step_cases hs with
    | exitsContext hcall hs => exact hwaits (exitContext_waits hs hleave)
    | _ => exact hleave trivial
  · exact fun hleave => (step_exits h hs hleave).not_waits

theorem new_covered (host routing : Bool) : Covered (Sys.new host routing).state (Sys.new host routing).calls :=
  .of_rests (.inr rfl)

theorem new_exits (host routing : Bool) :
    ExitsCancelled (Sys.new host routing).calls (Sys.new host routing).nurseries := by
  intro id isRunning n h
  simp [Sys.new] at h

/-- Where no start is cancelled and every nursery is left cancelled or empty, the peer rests running or
stopped and no `close` waits for tasks nobody stops; the second part is exact about the waiting. -/
theorem lifecycle_safe (c : Config) (host routing : Bool) (es : List Event) (s : Sys) :
    (Run (fun u e v => step c u e = some v ∧ StartsUncancelled e ∧ LeavesCancelled u e) (.new host routing) es s →
      Settled s ∧ ¬Waits s) ∧
    (Run (fun u e v => step c u e = some v ∧ ¬Waits v) (.new host routing) es s ↔
      Run (fun u e v => step c u e = some v ∧ LeavesCancelled u e) (.new host routing) es s) := by
  constructor
  · intro h
    have hinv : Covered s.state s.calls ∧ ExitsCancelled s.calls s.nurseries := by
      apply Run.invariant (P := fun s => Covered s.state s.calls ∧ ExitsCancelled s.calls s.nurseries) _ h
      · exact ⟨new_covered host routing, new_exits host routing⟩
      · rintro u e v ⟨hc, hx⟩ ⟨hs, hstart, hleave⟩
        exact ⟨step_covered hc hs hstart, step_exits hx hs hleave⟩
    exact ⟨hinv.1.settled, hinv.2.not_waits⟩
  · apply Run.congr_of_invariant (P := fun s => ExitsCancelled s.calls s.nurseries)
    · rintro u e v hx ⟨hs, hwaits⟩
      exact step_exits hx hs ((step_waits_iff hx hs).mp hwaits)
    · intro u e v hx
      exact and_congr_right fun hs => step_waits_iff hx hs
    · exact new_exits host routing

def plainConfig : Config := ⟨false, false, false, false⟩

def started : List Event := .startCall 0 :: List.replicate 10 (.bodyStep 0 .ok)

def carefulStep (u : Sys) (e : Event) : Option Sys :=
  match e with
  | .bodyStep _ .cancelled => none
  | .exitContext _ =>
    match u.exitStack with
    | .nursery n :: _ =>
      if (u.nurseries[n]?).all fun x => x.tasks = 0 || x.cancelled then step plainConfig u e else none
    | _ => step plainConfig u e
  | e => step plainConfig u e

theorem carefulStep_some {e : Event} (h : carefulStep u e = some v) :
    step plainConfig u e = some v ∧ StartsUncancelled e ∧ LeavesCancelled u e := by
  unfold carefulStep at h
  split at h
  · contradiction
  · split at h
    · next n rest hstack =>
      split_ifs at h with hall
      refine ⟨h, trivial, fun n' rest' x hstack' hx => ?_⟩
      rw [hstack] at hstack'
      obtain ⟨hn, -⟩ := List.cons.inj hstack'
      obtain rfl := Context.nursery.inj hn
      rw [hx] at hall
      simpa using hall
    · next hstack =>
      exact ⟨h, trivial, fun n rest x hstack' => absurd hstack' (hstack n rest)⟩
  · next hbody hexit =>
    cases e with
    | bodyStep id o => exact ⟨h, fun ho => hbody id (congrArg _ ho), trivial⟩
    | exitContext id => exact absurd rfl (hexit id)
    | _ => exact ⟨h, trivial, trivial⟩

def closedEmpty : List Event :=
  started ++ List.replicate 3 (.taskEnds 0) ++ [.closeCall 1, .exitContext 1, .exitContext 1, .unwound 1 .ok,
    .stopStep 1 .ok, .stopStep 1 .ok, .stopStep 1 .ok, .stopStep 1 .ok]

theorem lifecycle_safe_sample :
    ∃ s, s.state = .stopped ∧ Settled s ∧ ¬Waits s ∧
      Run (fun u e v => step plainConfig u e = some v) (.new false false) closedEmpty s := by
  obtain ⟨s, hrun, hend⟩ := exists_run carefulStep (.new false false) closedEmpty
    (fun s => s.state = .stopped) (by decide +kernel)
  have hrun := hrun.mono fun _ _ _ => carefulStep_some
  obtain ⟨hsettled, hwaits⟩ := (lifecycle_safe plainConfig false false closedEmpty s).1 hrun
  exact ⟨s, of_decide_eq_true hend, hsettled, hwaits, hrun.mono fun _ _ _ h => h.1⟩

theorem lifecycle_fails :
    (¬∀ (c : Config) (es : List Event) (s : Sys), Run (fun u e v => step c u e = some v) (.new false false) es s →
        Settled s) ∧
      ¬∀ (c : Config) (es : List Event) (s : Sys), Run (fun u e v => step c u e = some v) (.new false false) es s →
        ¬Waits s := by
  constructor
  · intro h
    obtain ⟨s, hrun, hend⟩ := exists_run (step plainConfig) (.new false false)
      [.startCall 0, .bodyStep 0 .cancelled]
      (fun s => s.calls.keys = [] ∧ s.state = .starting) (by decide +kernel)
    obtain ⟨hnone, hstate⟩ := of_decide_eq_true hend
    have hrests := h plainConfig _ s hrun hnone
    simp [hstate] at hrests
  · intro h
    obtain ⟨s, hrun, hend⟩ := exists_run (step plainConfig) (.new false false)
      (started ++ [.closeCall 1, .exitContext 1])
      (fun s => s.calls.get? 1 = some (.exiting true 0) ∧ s.nurseries = [⟨3, false, false⟩])
      (by decide +kernel)
    obtain ⟨hcall, hnurseries⟩ := of_decide_eq_true hend
    exact h plainConfig _ s hrun ⟨1, true, 0, ⟨3, false, false⟩, hcall, by simp [hnurseries], by simp, rfl⟩

end IpfsLite.Lifecycle
