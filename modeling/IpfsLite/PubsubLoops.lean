import IpfsLite.Lifecycle

/-!
The receive loops of the subscribed topics, from `_init_pubsub` on. `start` subscribes to its topics
one after another; other tasks subscribe and leave topics at any await. `pubsub.subscribe` returns a
subscription object or raises.
-/

namespace IpfsLite.PubsubLoops

open Runs Lifecycle

inductive LoopStatus
  | spawned
  | receiving
  | returned
deriving DecidableEq

structure Loop where
  topic : String
  subscription : ℕ
  status : LoopStatus
deriving DecidableEq

structure Sys where
  state : PeerState
  plan : List String
  awaiting : Option String
  calls : List String
  subscriptions : Dict String ℕ
  loops : List Loop
  raised : List ℕ

def Sys.new (pubsubTopics : List String) (ownIpnsTopic : Option String) (persisted : List String) : Sys where
  state := .starting
  plan := pubsubTopics ++ ownIpnsTopic.toList ++ persisted
  awaiting := none
  calls := []
  subscriptions := .empty
  loops := []
  raised := []

/-- `subscribe_pubsub_topic` after its await. -/
def Sys.subscribed (s : Sys) (topic : String) : Option ℕ → Sys
  | none => s
  | some subscription =>
    { s with
      subscriptions := s.subscriptions.set topic subscription
      loops := s.loops ++ [⟨topic, subscription, .spawned⟩] }

def Sys.setLoop (s : Sys) (i : ℕ) (status : LoopStatus) : Sys :=
  { s with loops := s.loops.modify i fun l => { l with status := status } }

/-- The guard `while self._state == PeerState.RUNNING` of the loop. -/
def Sys.guard (s : Sys) (i : ℕ) : Sys :=
  s.setLoop i (if s.state = .running then .receiving else .returned)

inductive Event
  | startNext
  | startSubscribed (result : Option ℕ)
  | startEnds
  | call (topic : String)
  | callSubscribed (topic : String) (result : Option ℕ)
  | leave (topic : String)
  | firstStep (i : ℕ)
  | delivered (i : ℕ)
  | getRaises (i : ℕ)

def step (s : Sys) : Event → Option Sys
  | .startNext =>
    match s.plan, s.awaiting with
    | topic :: rest, none =>
      if topic ∈ s.subscriptions.keys then some { s with plan := rest }
      else some { s with plan := rest, awaiting := some topic }
    | _, _ => none
  | .startSubscribed result =>
    s.awaiting.map fun topic => { s with awaiting := none }.subscribed topic result
  | .startEnds =>
    if s.state = .starting ∧ s.plan = [] ∧ s.awaiting = none then some { s with state := .running } else none
  | .call topic =>
    if topic ∈ s.subscriptions.keys then some s else some { s with calls := topic :: s.calls }
  | .callSubscribed topic result =>
    if topic ∈ s.calls then some ({ s with calls := s.calls.erase topic }.subscribed topic result) else none
  | .leave topic => some { s with subscriptions := s.subscriptions.erase topic }
  | .firstStep i =>
    if (s.loops[i]?).any (·.status = .spawned) then some (s.guard i) else none
  | .delivered i =>
    if (s.loops[i]?).any (·.status = .receiving) then some (s.guard i) else none
  | .getRaises i =>
    match s.loops[i]? with
    | some l =>
      if l.status = .receiving then
        some { s.setLoop i .returned with raised := l.subscription :: s.raised }
      else none
    | none => none

def Received (s : Sys) : Prop :=
  ∀ topic subscription, s.subscriptions.get? topic = some subscription → subscription ∉ s.raised →
    ∃ l ∈ s.loops, l.topic = topic ∧ l.subscription = subscription ∧ l.status ≠ .returned

def LoopsLate (u : Sys) : Event → Prop
  | .firstStep _ => u.state = .running
  | _ => True

structure Inv (s : Sys) : Prop where
  received : Received s
  guarded : ∀ l ∈ s.loops, l.status = .receiving → s.state = .running

theorem new_inv (pubsubTopics : List String) (ownIpnsTopic : Option String) (persisted : List String) :
    Inv (.new pubsubTopics ownIpnsTopic persisted) := by
  constructor
  · intro topic subscription h
    simp [Sys.new] at h
  · intro l hl
    simp [Sys.new] at hl

variable {s v : Sys} {topic : String}

theorem Inv.subscribed (h : Inv s) (topic : String) (result : Option ℕ) : Inv (s.subscribed topic result) := by
  cases result with
  | none => exact h
  | some subscription =>
    constructor
    · intro topic' subscription' hget hraised
      simp only [Sys.subscribed, Dict.get?_set] at hget
      split_ifs at hget with ht
      · obtain rfl := Option.some.inj hget
        exact ⟨⟨topic, subscription, .spawned⟩, by simp [Sys.subscribed], ht.symm, rfl, by simp⟩
      · obtain ⟨l, hl, hloop⟩ := h.received topic' subscription' hget hraised
        exact ⟨l, List.mem_append_left _ hl, hloop⟩
    · intro l hl hstatus
      obtain hl | hl := List.mem_append.mp hl
      · exact h.guarded l hl hstatus
      · obtain rfl := List.mem_singleton.mp hl
        contradiction

theorem mem_modify {α : Type*} {xs : List α} {i : ℕ} {f : α → α} {x : α} (h : x ∈ xs.modify i f) :
    x ∈ xs ∨ ∃ y, xs[i]? = some y ∧ x = f y := by
  obtain ⟨j, hj⟩ := List.mem_iff_getElem?.mp h
  rw [List.getElem?_modify] at hj
  by_cases hij : i = j
  · subst hij
    obtain ⟨y, hy, rfl⟩ := Option.map_eq_some_iff.mp hj
    exact .inr ⟨y, hy, by simp⟩
  · obtain ⟨y, hy, rfl⟩ := Option.map_eq_some_iff.mp hj
    simp only [hij, if_false]
    exact .inl (List.mem_of_getElem? hy)

theorem mem_modify_of_mem {α : Type*} {xs : List α} {i : ℕ} (f : α → α) {x : α} (h : x ∈ xs) :
    x ∈ xs.modify i f ∨ (xs[i]? = some x ∧ f x ∈ xs.modify i f) := by
  obtain ⟨j, hj⟩ := List.mem_iff_getElem?.mp h
  by_cases hij : i = j
  · subst hij
    refine .inr ⟨hj, List.mem_iff_getElem?.mpr ⟨i, ?_⟩⟩
    simp [hj]
  · refine .inl (List.mem_iff_getElem?.mpr ⟨j, ?_⟩)
    simp [hij, hj]

theorem Inv.guard (h : Inv s) (hrunning : s.state = .running) (i : ℕ) : Inv (s.guard i) := by
  have hguard : s.guard i = s.setLoop i .receiving := by simp [Sys.guard, hrunning]
  rw [hguard]
  constructor
  · intro topic subscription hget hraised
    obtain ⟨l, hl, ht, hsub, hstatus⟩ := h.received topic subscription hget hraised
    obtain hl' | ⟨-, hl'⟩ := mem_modify_of_mem (i := i) (fun l : Loop => { l with status := .receiving }) hl
    · exact ⟨l, hl', ht, hsub, hstatus⟩
    · exact ⟨_, hl', ht, hsub, by simp⟩
  · intro l hl hstatus
    exact hrunning

theorem Inv.getRaises (h : Inv s) {i : ℕ} {l : Loop} (hl : s.loops[i]? = some l) :
    Inv { s.setLoop i .returned with raised := l.subscription :: s.raised } := by
  constructor
  · intro topic subscription hget hraised
    simp only [List.mem_cons, not_or] at hraised
    obtain ⟨l', hl', ht, hsub, hstatus⟩ := h.received topic subscription hget hraised.2
    obtain hmem | ⟨hat, -⟩ := mem_modify_of_mem (i := i) (fun l : Loop => { l with status := .returned }) hl'
    · exact ⟨l', hmem, ht, hsub, hstatus⟩
    · rw [hl] at hat
      obtain rfl := Option.some.inj hat
      exact absurd hsub.symm hraised.1
  · intro l' hl' hstatus
    obtain hl' | ⟨y, -, rfl⟩ := mem_modify hl'
    · exact h.guarded l' hl' hstatus
    · contradiction

theorem step_inv {e : Event} (h : Inv s) (hs : step s e = some v) (hlate : LoopsLate s e) : Inv v := by
  cases e with
  | startNext =>
    simp only [step] at hs
    split at hs
    · split_ifs at hs <;> obtain rfl := Option.some.inj hs <;> exact ⟨h.received, h.guarded⟩
    · contradiction
  | startSubscribed result =>
    obtain ⟨topic, -, rfl⟩ := Option.map_eq_some_iff.mp hs
    have hawaiting : Inv { s with awaiting := none } := ⟨h.received, h.guarded⟩
    exact hawaiting.subscribed topic result
  | startEnds =>
    simp only [step] at hs
    split_ifs at hs
    obtain rfl := Option.some.inj hs
    exact ⟨h.received, fun _ _ _ => rfl⟩
  | call topic =>
    simp only [step] at hs
    split_ifs at hs <;> obtain rfl := Option.some.inj hs <;> exact ⟨h.received, h.guarded⟩
  | callSubscribed topic result =>
    simp only [step] at hs
    split_ifs at hs
    obtain rfl := Option.some.inj hs
    have hcalls : Inv { s with calls := s.calls.erase topic } := ⟨h.received, h.guarded⟩
    exact hcalls.subscribed topic result
  | leave topic =>
    obtain rfl := Option.some.inj hs
    refine ⟨fun topic' subscription hget => ?_, h.guarded⟩
    rw [Dict.get?_erase] at hget
    split_ifs at hget
    exact h.received topic' subscription hget
  | firstStep i =>
    simp only [step] at hs
    split_ifs at hs
    obtain rfl := Option.some.inj hs
    exact h.guard hlate i
  | delivered i =>
    simp only [step] at hs
    split_ifs at hs with hstatus
    obtain rfl := Option.some.inj hs
    obtain ⟨l, hl, hst⟩ := (Option.any_eq_true _ _).mp hstatus
    exact h.guard (h.guarded l (List.mem_of_getElem? hl) (of_decide_eq_true hst)) i
  | getRaises i =>
    simp only [step] at hs
    split at hs
    · next l hl =>
      split_ifs at hs
      obtain rfl := Option.some.inj hs
      exact h.getRaises hl
    · contradiction

theorem subscribedTopics_received {pubsubTopics persisted : List String} {ownIpnsTopic : Option String}
    {es : List Event} (h : Run (fun u e v => step u e = some v ∧ LoopsLate u e)
      (.new pubsubTopics ownIpnsTopic persisted) es s) : Received s := by
  apply Inv.received
  apply Run.invariant (P := Inv) _ h (new_inv pubsubTopics ownIpnsTopic persisted)
  rintro u e v hu ⟨hs, hlate⟩
  exact step_inv hu hs hlate

def startTwo (between : List Event) : List Event :=
  [.startNext, .startSubscribed (some 0), .startNext] ++ between ++ [.startSubscribed (some 1), .startEnds]

def lateStep (u : Sys) (e : Event) : Option Sys :=
  match e with
  | .firstStep i => if u.state = .running then step u (.firstStep i) else none
  | e => step u e

theorem lateStep_some {u : Sys} {e : Event} (h : lateStep u e = some v) : step u e = some v ∧ LoopsLate u e := by
  unfold lateStep at h
  split at h
  · split_ifs at h with hrunning
    exact ⟨h, hrunning⟩
  · next hfirst =>
    cases e with
    | firstStep i => exact absurd rfl (hfirst i)
    | _ => exact ⟨h, trivial⟩

theorem subscribedTopics_received_sample :
    ∃ s, s.state = .running ∧ s.subscriptions.keys = ["news", "/ipns/QmSelf"] ∧ Received s := by
  obtain ⟨s, hrun, hend⟩ := exists_run lateStep (.new ["news"] (some "/ipns/QmSelf") [])
    (startTwo [] ++ [.firstStep 0, .firstStep 1])
    (fun s => s.state = .running ∧ s.subscriptions.keys = ["news", "/ipns/QmSelf"]) (by decide +kernel)
  obtain ⟨hstate, hkeys⟩ := of_decide_eq_true hend
  exact ⟨s, hstate, hkeys, subscribedTopics_received (hrun.mono fun _ _ _ => lateStep_some)⟩

theorem subscribedTopics_received_fails :
    ¬∀ (pubsubTopics persisted : List String) (ownIpnsTopic : Option String) (es : List Event) (s : Sys),
      Run (fun u e v => step u e = some v) (.new pubsubTopics ownIpnsTopic persisted) es s →
        s.state = .running → Received s := by
  intro h
  obtain ⟨s, hrun, hend⟩ := exists_run step (.new ["news"] (some "/ipns/QmSelf") []) (startTwo [.firstStep 0])
    (fun s => s.state = .running ∧ s.subscriptions.get? "news" = some 0 ∧ s.raised = [] ∧
      s.loops = [⟨"news", 0, .returned⟩, ⟨"/ipns/QmSelf", 1, .spawned⟩]) (by decide +kernel)
  obtain ⟨hstate, hget, hraised, hloops⟩ := of_decide_eq_true hend
  obtain ⟨l, hl, htopic, -, hstatus⟩ := h _ _ _ _ s hrun hstate "news" 0 hget (by simp [hraised])
  simp only [hloops, List.mem_cons, List.not_mem_nil, or_false] at hl
  rcases hl with rfl | rfl
  · exact hstatus rfl
  · simp at htopic

end IpfsLite.PubsubLoops
