import IpfsLite.IpnsAuthenticity
import IpfsLite.IpnsPublish

/-!
The sequence numbers of a peer's records. A number is new when the calls that used the numbers
before it left them where the call that chooses it looks: in the datastore, at the routing or on
the clock.
-/

namespace IpfsLite.Naming

open Ipns PyInt Runs

def Phase.sequence? : Phase → Option ℤ
  | .writing sequence _ => some sequence
  | _ => none

namespace Sys

def inUse (s : Sys) : List ℤ :=
  s.records.map Record.sequence ++ s.calls.entries.filterMap fun e => e.2.phase.sequence?

def lastRead (s : Sys) (c : ℕ) : ℤ :=
  match (s.calls.get? c).map Call.phase with
  | some (.resolving last) => last
  | _ => 0

structure Idle (s : Sys) : Prop where
  calls : s.calls = .empty
  records : s.records = []
  returned : s.returned = []

end Sys

structure NeverRepeat (lib : NamingLib) (s : Sys) : Prop where
  written : ∀ r ∈ s.records, ∃ entry : IpnsEntry,
    r.bytes = lib.serializeToString entry ∧ (entry.sequence.toNat : ℤ) = r.sequence
  distinct : s.records.Pairwise fun r r' => r.sequence ≠ r'.sequence
  later : ∀ r ∈ s.records, ∀ r' ∈ s.records, r.call ∈ r'.after → r.sequence < r'.sequence

structure Fresh (s : Sys) (c : ℕ) (after : List ℕ) (n : ℤ) : Prop where
  records : ∀ r ∈ s.records, r.sequence ≠ n
  calls : ∀ d call, d ≠ c → s.calls.get? d = some call → call.phase.sequence? ≠ some n
  after : ∀ r ∈ s.records, r.call ∈ after → r.sequence < n

structure Inv (lib : NamingLib) (s : Sys) : Prop extends NeverRepeat lib s where
  pending : ∀ c call n, s.calls.get? c = some call → call.phase.sequence? = some n →
    Fresh s c call.after n
  unreturned : ∀ c call, s.calls.get? c = some call → c < s.nextCall ∧ c ∉ s.returnedIds
  returned : ∀ c ∈ s.returnedIds, c < s.nextCall
  callAfter : ∀ c call, s.calls.get? c = some call → ∀ d ∈ call.after, d ∈ s.returnedIds
  recordAfter : ∀ r ∈ s.records, ∀ d ∈ r.after, d ∈ s.returnedIds

variable {lib : NamingLib} {peer : Peer lib} {s t : Sys} {c : ℕ} {call : Call}

theorem inv_idle (h : s.Idle) : Inv lib s := by
  have hr : s.returnedIds = [] := by simp [Sys.returnedIds, h.returned]
  constructor
  · constructor <;> simp [h.records]
  all_goals simp [h.calls, h.records, hr]

section StepCases

variable (lib peer)

inductive StepCase (s : Sys) : Event → Sys → Prop
  | call (value : String) (hours : ℤ) (timeout : ℚ) :
    StepCase s (.call value hours timeout) (begin lib peer s value hours timeout)
  | restart : StepCase s .restart { s with calls := .empty }
  | got {c : ℕ} {call : Call} (hc : s.calls.get? c = some call) (hphase : call.phase = .reading) (ok : Bool) :
    StepCase s (.step c (.got ok)) (s.setPhase c call (.resolving (lastSequence lib
      (if ok then .ok s.datastore.join else .error ⟨.osError, "datastore"⟩))))
  | resolved {c : ℕ} {call : Call} {last : ℤ} (hc : s.calls.get? c = some call)
    (hphase : call.phase = .resolving last) (reply : Except PyError (Option Bytes))
    (validatedAt time now : ℤ) :
    StepCase s (.step c (.resolved reply validatedAt time now)) (choose lib peer s c call
      (nextSequence last (remoteSequence lib peer validatedAt reply) time) now)
  | stored {c : ℕ} {call : Call} {n : ℤ} (hc : s.calls.get? c = some call)
    (hphase : call.phase = .writing n false) :
    StepCase s (.step c .stored) { s.setPhase c call (.writing n true) with
      datastore := some (some (encodeUtf8 (toString n))) }
  | wrote {c : ℕ} {call : Call} {n : ℤ} {stored : Bool} (hc : s.calls.get? c = some call)
    (hphase : call.phase = .writing n stored) (ok : Bool) (now : ℤ) (hok : ok = true → stored = true) :
    StepCase s (.step c (.wrote ok now)) (publish lib peer s c call n now)
  | published {c : ℕ} {call : Call} (hc : s.calls.get? c = some call) (hphase : call.phase = .publishing)
    (outcome : Outcome) :
    StepCase s (.step c (.published outcome)) (s.finish c (result lib peer call outcome))
  | cancelled {c : ℕ} {call : Call} (hc : s.calls.get? c = some call) :
    StepCase s (.step c .cancelled) (s.drop c)

variable {lib peer}

theorem stepCall_cases {ev : CallEvent} (hc : s.calls.get? c = some call)
    (e : stepCall lib peer s c call ev = some t) : StepCase lib peer s (.step c ev) t := by
  cases ev with
  | got ok =>
    cases hphase : call.phase <;> simp only [stepCall, hphase, Option.some.injEq, reduceCtorEq] at e
    case reading =>
      subst e
      exact .got hc hphase ok
  | resolved reply validatedAt time now =>
    cases hphase : call.phase <;> simp only [stepCall, hphase, Option.some.injEq, reduceCtorEq] at e
    case resolving last =>
      subst e
      exact .resolved hc hphase reply validatedAt time now
  | stored =>
    simp only [stepCall] at e
    split at e
    next n hphase =>
      obtain rfl := Option.some.inj e
      exact .stored hc hphase
    next => exact absurd e (by simp)
  | wrote ok now =>
    simp only [stepCall] at e
    split at e
    next n stored hphase =>
      split at e
      · exact absurd e (by simp)
      next hok =>
        obtain rfl := Option.some.inj e
        exact .wrote hc hphase ok now (by simpa using hok)
    next => exact absurd e (by simp)
  | published outcome =>
    cases hphase : call.phase <;> simp only [stepCall, hphase, Option.some.injEq, reduceCtorEq] at e
    case publishing =>
      subst e
      exact .published hc hphase outcome
  | cancelled =>
    obtain rfl := Option.some.inj e
    exact .cancelled hc

theorem step_cases {a : Event} (e : step lib peer s a = some t) : StepCase lib peer s a t := by
  cases a with
  | call value hours timeout =>
    obtain rfl := Option.some.inj e
    exact .call value hours timeout
  | restart =>
    obtain rfl := Option.some.inj e
    exact .restart
  | step c ev =>
    obtain ⟨call, hc, e⟩ := Option.bind_eq_some_iff.mp e
    exact stepCall_cases hc e

end StepCases

section Steps

theorem get?_of_set {new : Call} {d : ℕ} {other : Call} (hd : (s.calls.set c new).get? d = some other) :
    d = c ∧ other = new ∨ d ≠ c ∧ s.calls.get? d = some other := by
  rw [Dict.get?_set] at hd
  split at hd
  · exact .inl ⟨by assumption, (Option.some.inj hd).symm⟩
  · exact .inr ⟨by assumption, hd⟩

theorem inv_setPhase (h : Inv lib s) (hc : s.calls.get? c = some call) {phase : Phase}
    (hp : ∀ n, phase.sequence? = some n → Fresh s c call.after n) :
    Inv lib (s.setPhase c call phase) := by
  constructor
  · exact ⟨h.written, h.distinct, h.later⟩
  · intro d other n hd hn
    obtain ⟨rfl, rfl⟩ | ⟨hdc, hold⟩ := get?_of_set hd
    · refine ⟨(hp n hn).records, ?_, (hp n hn).after⟩
      intro e third he hthird
      obtain ⟨rfl, -⟩ | ⟨-, hthird⟩ := get?_of_set hthird
      · exact absurd rfl he
      · exact (hp n hn).calls e third he hthird
    · have hf := h.pending d other n hold hn
      refine ⟨hf.records, ?_, hf.after⟩
      intro e third he hthird
      obtain ⟨rfl, rfl⟩ | ⟨-, hthird⟩ := get?_of_set hthird
      · intro hphase
        exact (hp n hphase).calls d other hdc hold hn
      · exact hf.calls e third he hthird
  · intro d other hd
    obtain ⟨rfl, -⟩ | ⟨-, hd⟩ := get?_of_set hd
    · exact h.unreturned d call hc
    · exact h.unreturned d other hd
  · exact h.returned
  · intro d other hd
    obtain ⟨rfl, rfl⟩ | ⟨-, hd⟩ := get?_of_set hd
    · exact h.callAfter d call hc
    · exact h.callAfter d other hd
  · exact h.recordAfter

theorem get?_of_drop {d : ℕ} {other : Call} (hd : (s.drop c).calls.get? d = some other) :
    d ≠ c ∧ s.calls.get? d = some other := by
  simp only [Sys.drop, Dict.get?_erase] at hd
  split at hd
  · exact absurd hd (by simp)
  · exact ⟨by assumption, hd⟩

theorem Fresh.of_fewer {after : List ℕ} {n : ℤ} (hf : Fresh s c after n) (hrecords : t.records = s.records)
    (hcalls : ∀ d other, t.calls.get? d = some other → s.calls.get? d = some other) :
    Fresh t c after n := by
  constructor
  · rw [hrecords]
    exact hf.records
  · exact fun d other hd hother => hf.calls d other hd (hcalls d other hother)
  · rw [hrecords]
    exact hf.after

theorem inv_fewer (h : Inv lib s) (hrecords : t.records = s.records)
    (hcalls : ∀ d other, t.calls.get? d = some other → s.calls.get? d = some other)
    (hnext : s.nextCall ≤ t.nextCall) (hret : s.returnedIds ⊆ t.returnedIds)
    (hnew : ∀ d ∈ t.returnedIds, d ∉ s.returnedIds → d < t.nextCall ∧ t.calls.get? d = none) :
    Inv lib t := by
  constructor
  · constructor
    · rw [hrecords]
      exact h.written
    · rw [hrecords]
      exact h.distinct
    · rw [hrecords]
      exact h.later
  · intro d other n hd hn
    exact (h.pending d other n (hcalls d other hd) hn).of_fewer hrecords hcalls
  · intro d other hd
    obtain ⟨hlt, hnot⟩ := h.unreturned d other (hcalls d other hd)
    refine ⟨hlt.trans_le hnext, fun hmem => ?_⟩
    have hnone := (hnew d hmem hnot).2
    simp [hd] at hnone
  · intro d hd
    by_cases hold : d ∈ s.returnedIds
    · exact (h.returned d hold).trans_le hnext
    · exact (hnew d hd hold).1
  · exact fun d other hd e he => hret (h.callAfter d other (hcalls d other hd) e he)
  · rw [hrecords]
    exact fun r hr d hd => hret (h.recordAfter r hr d hd)

theorem inv_drop (h : Inv lib s) : Inv lib (s.drop c) := by
  refine inv_fewer h rfl ?_ le_rfl (List.Subset.refl _) ?_
  · exact fun d other hd => (get?_of_drop hd).2
  · exact fun d hd hnot => absurd hd hnot

theorem inv_returned (h : Inv lib s) (hc : s.calls.get? c = none) (result : Except PyError String)
    {next : ℕ} (hn : c < next) (hnext : s.nextCall ≤ next) :
    Inv lib { s with returned := s.returned ++ [(c, result)], nextCall := next } := by
  refine inv_fewer h rfl (fun _ _ hd => hd) hnext ?_ ?_
  · simp [Sys.returnedIds]
  · intro d hd hnot
    obtain rfl : d = c := by
      have hd : d ∈ s.returnedIds ∨ d = c := by simpa [Sys.returnedIds] using hd
      exact hd.resolve_left hnot
    exact ⟨hn, hc⟩

theorem inv_finish (h : Inv lib s) (hc : s.calls.get? c = some call)
    (result : Except PyError String) : Inv lib (s.finish c result) := by
  have hlt := (h.unreturned c call hc).1
  exact inv_returned (s := s.drop c) (inv_drop h) (by simp [Sys.drop]) result hlt le_rfl

theorem inv_record (h : Inv lib s) (hc : s.calls.get? c = some call)
    (hphase : call.phase.sequence? = none) {n : ℤ} (hf : Fresh s c call.after n) {bytes : Bytes}
    (hb : ∃ entry : IpnsEntry, bytes = lib.serializeToString entry ∧ (entry.sequence.toNat : ℤ) = n) :
    Inv lib { s with records := s.records ++ [⟨c, call.after, n, bytes⟩] } := by
  have hnot : c ∉ s.returnedIds := (h.unreturned c call hc).2
  constructor
  · constructor
    · intro r hr
      rcases List.mem_append.mp hr with hr | hr
      · exact h.written r hr
      · obtain rfl := List.mem_singleton.mp hr
        exact hb
    · apply List.pairwise_append.mpr
      refine ⟨h.distinct, List.pairwise_singleton _ _, ?_⟩
      intro r hr r' hr'
      obtain rfl := List.mem_singleton.mp hr'
      exact hf.records r hr
    · intro r hr r' hr' hafter
      rcases List.mem_append.mp hr with hr | hr <;> rcases List.mem_append.mp hr' with hr' | hr'
      · exact h.later r hr r' hr' hafter
      · obtain rfl := List.mem_singleton.mp hr'
        exact hf.after r hr hafter
      -- the call of the new record has not returned, so that no call started after it
      · obtain rfl := List.mem_singleton.mp hr
        exact absurd (h.recordAfter r' hr' c hafter) hnot
      · obtain rfl := List.mem_singleton.mp hr
        obtain rfl := List.mem_singleton.mp hr'
        exact absurd (h.callAfter c call hc c hafter) hnot
  · intro d other m hd hm
    have hdc : d ≠ c := by
      rintro rfl
      obtain rfl : other = call := Option.some.inj (hd.symm.trans hc)
      simp [hphase] at hm
    have hold := h.pending d other m hd hm
    constructor
    · intro r hr
      rcases List.mem_append.mp hr with hr | hr
      · exact hold.records r hr
      · obtain rfl := List.mem_singleton.mp hr
        rintro rfl
        exact hf.calls d other hdc hd hm
    · exact hold.calls
    · intro r hr hafter
      rcases List.mem_append.mp hr with hr | hr
      · exact hold.after r hr hafter
      · obtain rfl := List.mem_singleton.mp hr
        exact absurd (h.callAfter d other hd c hafter) hnot
  · exact h.unreturned
  · exact h.returned
  · exact h.callAfter
  · intro r hr
    rcases List.mem_append.mp hr with hr | hr
    · exact h.recordAfter r hr
    · obtain rfl := List.mem_singleton.mp hr
      exact h.callAfter c call hc

theorem createIpnsRecord_sequence {now : ℤ} {key : lib.PrivKey} {value : String} {n hours : ℤ}
    {bytes : Bytes} (h : createIpnsRecord lib.toIpnsLib now key value n hours = .ok bytes) :
    ∃ entry : IpnsEntry, bytes = lib.serializeToString entry ∧ (entry.sequence.toNat : ℤ) = n := by
  unfold createIpnsRecord at h
  split at h
  · exact absurd h (by simp)
  · next hn =>
    push Not at hn
    split at h
    · exact absurd h (by simp)
    · dsimp only at h
      split at h
      · exact absurd h (by simp)
      · refine ⟨_, (Except.ok.inj h).symm, ?_⟩
        change ((UInt64.ofNat n.toNat).toNat : ℤ) = n
        rw [UInt64.toNat_ofNat_of_lt' (by unfold UInt64.size; omega)]
        omega

theorem inv_publish (h : Inv lib s) (hc : s.calls.get? c = some call) {n : ℤ}
    (hf : Fresh s c call.after n) (now : ℤ) : Inv lib (publish lib peer s c call n now) := by
  unfold publish
  split
  next bytes hb =>
    have hset : Inv lib (s.setPhase c call .publishing) := inv_setPhase h hc (by simp [Phase.sequence?])
    have hget : (s.setPhase c call .publishing).calls.get? c = some { call with phase := .publishing } := by
      simp [Sys.setPhase]
    refine inv_record hset hget rfl ⟨hf.records, ?_, hf.after⟩ (createIpnsRecord_sequence hb)
    intro d other hd hget
    apply hf.calls d other hd
    simpa [Sys.setPhase, hd] using hget
  next => exact inv_finish h hc _

theorem inv_choose (h : Inv lib s) (hc : s.calls.get? c = some call) {n : ℤ}
    (hf : Fresh s c call.after n) (now : ℤ) : Inv lib (choose lib peer s c call n now) := by
  unfold choose
  split
  · apply inv_setPhase h hc
    intro m hm
    obtain rfl : n = m := by simpa [Phase.sequence?] using hm
    exact hf
  · exact inv_publish h hc hf now

theorem inv_begin (h : Inv lib s) (value : String) (hours : ℤ) (timeout : ℚ) :
    Inv lib (begin lib peer s value hours timeout) := by
  unfold begin
  split
  · constructor
    · exact ⟨h.written, h.distinct, h.later⟩
    · intro d other n hd hn
      obtain ⟨rfl, rfl⟩ | ⟨-, hold⟩ := get?_of_set hd
      · dsimp only at hn
        split at hn <;> simp [Phase.sequence?] at hn
      · have hf := h.pending d other n hold hn
        refine ⟨hf.records, ?_, hf.after⟩
        intro e third he hthird
        obtain ⟨rfl, rfl⟩ | ⟨-, hthird⟩ := get?_of_set hthird
        · dsimp only
          split <;> simp [Phase.sequence?]
        · exact hf.calls e third he hthird
    · intro d other hd
      obtain ⟨rfl, rfl⟩ | ⟨-, hold⟩ := get?_of_set hd
      · exact ⟨Nat.lt_succ_self _, fun hret => (h.returned _ hret).false⟩
      · exact ⟨(h.unreturned d other hold).1.trans (Nat.lt_succ_self _), (h.unreturned d other hold).2⟩
    · intro d hd
      exact (h.returned d hd).trans (Nat.lt_succ_self _)
    · intro d other hd
      obtain ⟨rfl, rfl⟩ | ⟨-, hold⟩ := get?_of_set hd
      · exact fun e he => he
      · exact h.callAfter d other hold
    · exact h.recordAfter
  · apply inv_returned h _ _ (Nat.lt_succ_self _) (Nat.le_succ _)
    rw [Option.eq_none_iff_forall_ne_some]
    intro other hother
    exact (h.unreturned _ other hother).1.false

theorem inv_datastore (h : Inv lib s) (stored : Option (Option Bytes)) :
    Inv lib { s with datastore := stored } := by
  refine inv_fewer h rfl (fun _ _ hd => hd) le_rfl (List.Subset.refl _) ?_
  exact fun d hd hnot => absurd hd hnot

theorem inv_restart (h : Inv lib s) : Inv lib { s with calls := .empty } := by
  refine inv_fewer h rfl ?_ le_rfl (List.Subset.refl _) ?_
  · simp
  · exact fun d hd hnot => absurd hd hnot

theorem mem_inUse_record {r : Record} (hr : r ∈ s.records) : r.sequence ∈ s.inUse :=
  List.mem_append_left _ (List.mem_map_of_mem hr)

theorem mem_inUse_call {n : ℤ} (hc : s.calls.get? c = some call)
    (hn : call.phase.sequence? = some n) : n ∈ s.inUse :=
  List.mem_append_right _ (List.mem_filterMap.mpr ⟨(c, call), Dict.get?_eq_some.mp hc, hn⟩)

theorem fresh_of_lt {n : ℤ} (h : ∀ m ∈ s.inUse, m < n) (c : ℕ) (after : List ℕ) : Fresh s c after n := by
  constructor
  · exact fun r hr => (h _ (mem_inUse_record hr)).ne
  · intro d call _ hd hn
    exact (h n (mem_inUse_call hd hn)).false
  · exact fun r hr _ => h _ (mem_inUse_record hr)

end Steps

section Choosing

variable (lib peer)

/-- Every number in use when a call chooses its own is known to one of the places it looks. -/
def Remembers (s : Sys) : Event → Prop
  | .step c (.resolved reply validatedAt time _) =>
    ∀ n ∈ s.inUse, n ≤ s.lastRead c ∨ n ≤ remoteSequence lib peer validatedAt reply ∨ n ≤ time
  | _ => True

instance (s : Sys) : DecidablePred (Remembers lib peer s)
  | .step _ (.resolved ..) => List.decidableBAll _ _
  | .step _ (.got _) | .step _ .stored | .step _ (.wrote ..) | .step _ (.published _)
  | .step _ .cancelled | .call .. | .restart => .isTrue trivial

variable {lib peer}

theorem inv_step {a : Event} (h : Inv lib s) (e : step lib peer s a = some t)
    (hr : Remembers lib peer s a) : Inv lib t := by
  cases step_cases e with
  | call value hours timeout => exact inv_begin h value hours timeout
  | restart => exact inv_restart h
  | got hc hphase ok => exact inv_setPhase h hc (by simp [Phase.sequence?])
  | @resolved c call last hc hphase reply validatedAt time now =>
    apply inv_choose h hc
    apply fresh_of_lt
    intro m hm
    have hlast : s.lastRead c = last := by simp [Sys.lastRead, hc, hphase]
    have hm := hr m hm
    rw [hlast] at hm
    unfold nextSequence
    omega
  | @stored c call n hc hphase =>
    apply inv_datastore
    apply inv_setPhase h hc
    intro m hm
    exact h.pending c call m hc (by rw [hphase]; exact hm)
  | @wrote c call n stored hc hphase ok now hok =>
    exact inv_publish h hc (h.pending c call n hc (by rw [hphase]; rfl)) now
  | published hc hphase outcome => exact inv_finish h hc _
  | cancelled hc => exact inv_drop h

theorem neverRepeat_of_remembers {as : List Event} (hs : s.Idle)
    (run : Run (fun u a v => step lib peer u a = some v ∧ Remembers lib peer u a) s as t) :
    NeverRepeat lib t := by
  have hinv : Inv lib t := run.invariant (P := Inv lib) (fun _ _ _ h e => inv_step h e.1 e.2) (inv_idle hs)
  exact hinv.toNeverRepeat

end Choosing

section Alone

def Phase.isChoosing : Phase → Bool
  | .resolving _ => true
  | .writing _ stored => !stored
  | _ => false

/-- The datastore works, and no call reads it while another one is about to change it. -/
def WorksAlone (s : Sys) : Event → Prop
  | .step _ (.got ok) => ok = true ∧ ∀ e ∈ s.calls.entries, e.2.phase.isChoosing = false
  | .step _ (.wrote ok _) => ok = true
  | _ => True

instance (s : Sys) : DecidablePred (WorksAlone s)
  | .step _ (.got _) => instDecidableAnd
  | .step _ (.wrote ..) => instDecidableEqBool _ _
  | .step _ (.resolved ..) | .step _ .stored | .step _ (.published _)
  | .step _ .cancelled | .call .. | .restart => .isTrue trivial

def Sys.kept (lib : NamingLib) (s : Sys) : ℤ := lastSequence lib (.ok s.datastore.join)

structure Stored (lib : NamingLib) (s : Sys) : Prop where
  datastore : s.datastore.isSome
  records : ∀ r ∈ s.records, r.sequence ≤ s.kept lib
  stored : ∀ c call n, s.calls.get? c = some call → call.phase = .writing n true → n ≤ s.kept lib
  resolving : ∀ c call last, s.calls.get? c = some call → call.phase = .resolving last →
    last = s.kept lib
  writing : ∀ c call n stored, s.calls.get? c = some call → call.phase = .writing n stored →
    0 ≤ n ∧ (Nat.toDigits 10 n.natAbs).length ≤ maxStrDigits ∧ (stored = false → s.kept lib ≤ n)
  alone : ∀ c d call other, s.calls.get? c = some call → s.calls.get? d = some other →
    call.phase.isChoosing → other.phase.isChoosing → c = d

theorem int_encoded {n : ℤ} (hn : 0 ≤ n) (hl : (Nat.toDigits 10 n.natAbs).length ≤ maxStrDigits) :
    (decodeUtf8 (encodeUtf8 (toString n))).bind (int lib.toAscii) = .ok n := by
  obtain ⟨m, rfl⟩ := Int.eq_ofNat_of_zero_le hn
  have hs : toString (m : ℤ) = m.repr := rfl
  rw [decodeUtf8_encodeUtf8, hs, Except.bind]
  exact int_toDigits lib.toAscii_of_lt m hl

theorem lastSequence_str {n : ℤ} (hn : 0 ≤ n) (hl : (Nat.toDigits 10 n.natAbs).length ≤ maxStrDigits) :
    lastSequence lib (.ok (some (encodeUtf8 (toString n)))) = n := by
  have h : (decodeUtf8 (encodeUtf8 (toString n))).bind (int lib.toAscii) = .ok n := int_encoded hn hl
  cases hb : encodeUtf8 (toString n) with
  | nil =>
    have hempty : int lib.toAscii "" = .ok n := by
      rw [hb] at h
      exact h
    cases hempty
  | cons b bs =>
    rw [hb] at h
    simp [lastSequence, h]

theorem stored_setPhase (h : Stored lib s) {phase : Phase}
    (hs : ∀ n, phase = .writing n true → n ≤ s.kept lib)
    (hr : ∀ last, phase = .resolving last → last = s.kept lib)
    (hw : ∀ n stored, phase = .writing n stored →
      0 ≤ n ∧ (Nat.toDigits 10 n.natAbs).length ≤ maxStrDigits ∧ (stored = false → s.kept lib ≤ n))
    (ha : phase.isChoosing → ∀ d other, d ≠ c → s.calls.get? d = some other →
      other.phase.isChoosing = false) :
    Stored lib (s.setPhase c call phase) := by
  constructor
  · exact h.datastore
  · exact h.records
  · intro d other n hd hn
    obtain ⟨rfl, rfl⟩ | ⟨-, hold⟩ := get?_of_set hd
    · exact hs n hn
    · exact h.stored d other n hold hn
  · intro d other last hd hlast
    obtain ⟨rfl, rfl⟩ | ⟨-, hold⟩ := get?_of_set hd
    · exact hr last hlast
    · exact h.resolving d other last hold hlast
  · intro d other n stored hd hn
    obtain ⟨rfl, rfl⟩ | ⟨-, hold⟩ := get?_of_set hd
    · exact hw n stored hn
    · exact h.writing d other n stored hold hn
  · intro d e first second hd he hfirst hsecond
    obtain ⟨rfl, rfl⟩ | ⟨hdc, hold⟩ := get?_of_set hd <;>
      obtain ⟨rfl, rfl⟩ | ⟨hec, hold'⟩ := get?_of_set he
    · rfl
    · simp [ha hfirst e second hec hold'] at hsecond
    · simp [ha hsecond d first hdc hold] at hfirst
    · exact h.alone d e first second hold hold' hfirst hsecond

theorem stored_drop (h : Stored lib s) : Stored lib (s.drop c) := by
  constructor
  · exact h.datastore
  · exact h.records
  · exact fun d other n hd => h.stored d other n (get?_of_drop hd).2
  · exact fun d other last hd => h.resolving d other last (get?_of_drop hd).2
  · exact fun d other n stored hd => h.writing d other n stored (get?_of_drop hd).2
  · exact fun d e first second hd he => h.alone d e first second (get?_of_drop hd).2 (get?_of_drop he).2

theorem stored_returned (h : Stored lib s) (returned : List (ℕ × Except PyError String)) (next : ℕ) :
    Stored lib { s with returned := returned, nextCall := next } :=
  ⟨h.datastore, h.records, h.stored, h.resolving, h.writing, h.alone⟩

theorem stored_publish (h : Stored lib s) {n now : ℤ}
    (hn : n < 2 ^ 64 → n ≤ s.kept lib) : Stored lib (publish lib peer s c call n now) := by
  unfold publish
  split
  next bytes hb =>
    have hset : Stored lib (s.setPhase c call .publishing) :=
      stored_setPhase h (by simp) (by simp) (by simp) (by simp [Phase.isChoosing])
    refine ⟨hset.datastore, ?_, hset.stored, hset.resolving, hset.writing, hset.alone⟩
    intro r hr
    rcases List.mem_append.mp hr with hr | hr
    · exact h.records r hr
    · obtain rfl := List.mem_singleton.mp hr
      obtain ⟨entry, -, he⟩ := createIpnsRecord_sequence hb
      have := entry.sequence.toNat_lt
      exact hn (by omega)
  next => exact stored_returned (stored_drop h) _ _

theorem length_toDigits_le {n : ℤ} (hn : 0 ≤ n) (h : n ≤ 2 ^ 64) :
    (Nat.toDigits 10 n.natAbs).length ≤ maxStrDigits := by
  have hlen : (Nat.toDigits 10 n.natAbs).length ≤ 20 := by
    apply (Nat.length_toDigits_le_iff (by decide) (by decide)).mpr
    omega
  exact hlen.trans (by decide)

theorem stored_choose (h : Stored lib s) (hc : s.calls.get? c = some call) {n now : ℤ}
    (hphase : call.phase.isChoosing) (hpos : 0 ≤ n) (hn : s.kept lib ≤ n) :
    Stored lib (choose lib peer s c call n now) := by
  have ha (d : ℕ) (other : Call) (hd : d ≠ c) (hother : s.calls.get? d = some other) :
      other.phase.isChoosing = false := by
    by_contra hch
    exact hd (h.alone d c other call hother hc (by simpa using hch) hphase)
  unfold choose
  split
  next hstr =>
    have hl : (Nat.toDigits 10 n.natAbs).length ≤ maxStrDigits := by
      by_contra hl
      simp [str, Nat.lt_of_not_le hl] at hstr
    apply stored_setPhase h (by simp) (by simp)
    · rintro m stored hm
      obtain ⟨rfl, -⟩ := Phase.writing.inj hm
      exact ⟨hpos, hl, fun _ => hn⟩
    · exact fun _ => ha
  next hno =>
    apply stored_publish h
    intro hlt
    obtain ⟨stored, hd⟩ := Option.isSome_iff_exists.mp h.datastore
    refine absurd ?_ (hno stored (toString n) hd)
    simp [str, Nat.not_lt.mpr (length_toDigits_le hpos hlt.le)]

variable (lib peer) in
theorem nextSequence_pos (last time validatedAt : ℤ) (reply : Except PyError (Option Bytes)) :
    last < nextSequence last (remoteSequence lib peer validatedAt reply) time ∧
      0 < nextSequence last (remoteSequence lib peer validatedAt reply) time := by
  have hremote : 0 ≤ remoteSequence lib peer validatedAt reply := by
    unfold remoteSequence
    split
    · exact Int.natCast_nonneg _
    · exact le_rfl
  unfold nextSequence
  omega

theorem stored_stored (h : Stored lib s) (hc : s.calls.get? c = some call) {n : ℤ}
    (hphase : call.phase = .writing n false) :
    Stored lib { s.setPhase c call (.writing n true) with
      datastore := some (some (encodeUtf8 (toString n))) } := by
  obtain ⟨hpos, hl, hn⟩ := h.writing c call n false hc hphase
  have hkept : Sys.kept lib { s.setPhase c call (.writing n true) with
      datastore := some (some (encodeUtf8 (toString n))) } = n := lastSequence_str hpos hl
  have hle := hn rfl
  have only {d : ℕ} {other : Call} (hd : s.calls.get? d = some other) (hch : other.phase.isChoosing) :
      d = c := h.alone d c other call hd hc hch (by simp [hphase, Phase.isChoosing])
  constructor
  · rfl
  · intro r hr
    rw [hkept]
    exact (h.records r hr).trans hle
  · intro d other m hd hm
    rw [hkept]
    obtain ⟨rfl, rfl⟩ | ⟨-, hold⟩ := get?_of_set hd
    · exact (Phase.writing.inj hm).1.ge
    · exact (h.stored d other m hold hm).trans hle
  · intro d other last hd hlast
    obtain ⟨rfl, rfl⟩ | ⟨hdc, hold⟩ := get?_of_set hd
    · exact absurd hlast (by simp)
    · exact absurd (only hold (by simp [hlast, Phase.isChoosing])) hdc
  · intro d other m stored hd hm
    rw [hkept]
    obtain ⟨rfl, rfl⟩ | ⟨hdc, hold⟩ := get?_of_set hd
    · obtain ⟨rfl, rfl⟩ := Phase.writing.inj hm
      exact ⟨hpos, hl, fun _ => le_rfl⟩
    · cases stored with
      | true =>
        obtain ⟨hm0, hml, -⟩ := h.writing d other m true hold hm
        exact ⟨hm0, hml, by simp⟩
      | false => exact absurd (only hold (by simp [hm, Phase.isChoosing])) hdc
  · intro d e first second hd he hfirst hsecond
    obtain ⟨rfl, rfl⟩ | ⟨hdc, hold⟩ := get?_of_set hd
    · exact absurd hfirst (by simp [Phase.isChoosing])
    · exact absurd (only hold hfirst) hdc

theorem stored_begin (h : Stored lib s) (value : String) (hours : ℤ) (timeout : ℚ) :
    Stored lib (begin lib peer s value hours timeout) := by
  unfold begin
  split
  · rw [if_pos h.datastore]
    let call : Call := ⟨value, hours, timeout, s.returnedIds, .reading⟩
    have hset : Stored lib (s.setPhase s.nextCall call .reading) :=
      stored_setPhase h (by simp) (by simp) (by simp) (by simp [Phase.isChoosing])
    exact ⟨hset.datastore, hset.records, hset.stored, hset.resolving, hset.writing, hset.alone⟩
  · exact stored_returned h _ _

theorem stored_step {a : Event} (h : Stored lib s) (e : step lib peer s a = some t)
    (hw : WorksAlone s a) : Stored lib t := by
  cases step_cases e with
  | call value hours timeout => exact stored_begin h value hours timeout
  | restart => exact ⟨h.datastore, h.records, by simp, by simp, by simp, by simp⟩
  | got hc hphase ok =>
    obtain ⟨rfl, hnone⟩ := hw
    apply stored_setPhase h (by simp)
    · intro last hlast
      exact (Phase.resolving.inj hlast).symm
    · simp
    · exact fun _ d other _ hother => hnone (d, other) (Dict.get?_eq_some.mp hother)
  | @resolved c call last hc hphase reply validatedAt time now =>
    have hnext := nextSequence_pos lib peer last time validatedAt reply
    obtain rfl := h.resolving c call last hc hphase
    exact stored_choose h hc (by simp [hphase, Phase.isChoosing]) hnext.2.le hnext.1.le
  | stored hc hphase => exact stored_stored h hc hphase
  | @wrote c call n stored hc hphase ok now hok =>
    obtain rfl := hok hw
    exact stored_publish h fun _ => h.stored c call n hc hphase
  | published hc hphase outcome => exact stored_returned (stored_drop h) _ _
  | cancelled hc => exact stored_drop h

theorem le_kept_of_inUse (h : Stored lib s) (hc : s.calls.get? c = some call)
    (hphase : call.phase.isChoosing) (hnum : call.phase.sequence? = none) {n : ℤ} (hn : n ∈ s.inUse) :
    n ≤ s.kept lib := by
  rcases List.mem_append.mp hn with hn | hn
  · obtain ⟨r, hr, rfl⟩ := List.mem_map.mp hn
    exact h.records r hr
  · obtain ⟨⟨d, other⟩, hd, hseq⟩ := List.mem_filterMap.mp hn
    have hd := Dict.get?_eq_some.mpr hd
    cases hother : other.phase with
    | writing m stored =>
      obtain rfl : m = n := by simpa [hother, Phase.sequence?] using hseq
      cases stored with
      | true => exact h.stored d other m hd hother
      | false =>
        -- the other call would be choosing as well
        have hdc : d = c := h.alone d c other call hd hc (by simp [hother, Phase.isChoosing]) hphase
        rw [hdc, hc] at hd
        rw [Option.some.inj hd, hother] at hnum
        exact absurd hnum (by simp [Phase.sequence?])
    | _ => simp [hother, Phase.sequence?] at hseq

theorem remembers_of_stored {a : Event} (h : Stored lib s) (e : step lib peer s a = some t) :
    Remembers lib peer s a := by
  cases step_cases e with
  | @resolved c call last hc hphase reply validatedAt time now =>
    intro n hn
    have hlast : s.lastRead c = s.kept lib := by
      rw [← h.resolving c call last hc hphase]
      simp [Sys.lastRead, hc, hphase]
    left
    rw [hlast]
    exact le_kept_of_inUse h hc (by simp [hphase, Phase.isChoosing]) (by simp [hphase, Phase.sequence?]) hn
  | _ => trivial

theorem remembers_of_worksAlone {as : List Event} (hs : s.Idle) (hd : s.datastore.isSome)
    (run : Run (fun u a v => step lib peer u a = some v ∧ WorksAlone u a) s as t) :
    Run (fun u a v => step lib peer u a = some v ∧ Remembers lib peer u a) s as t := by
  have hidle : Stored lib s := by
    constructor
    · exact hd
    all_goals simp [hs.calls, hs.records]
  have hstored : Run (fun u a v => step lib peer u a = some v ∧ Remembers lib peer u a) s as t ∧
      Stored lib t := by
    induction run with
    | refl => exact ⟨.refl, hidle⟩
    | tail _ e ih => exact ⟨ih.1.tail ⟨e.1, remembers_of_stored ih.2 e.1⟩, stored_step ih.2 e.1 e.2⟩
  exact hstored.1

end Alone

theorem publishName_sequences (lib : NamingLib) (peer : Peer lib) (s t : Sys) (as : List Event)
    (hs : s.Idle)
    (h : Run (fun u a v => step lib peer u a = some v ∧ Remembers lib peer u a) s as t ∨
      s.datastore.isSome ∧ Run (fun u a v => step lib peer u a = some v ∧ WorksAlone u a) s as t) :
    NeverRepeat lib t := by
  rcases h with run | ⟨hd, run⟩
  · exact neverRepeat_of_remembers hs run
  · exact neverRepeat_of_remembers hs (remembers_of_worksAlone hs hd run)

def dataOf (sequence : ℤ) : Bytes := publishedData.dropLast ++ [.ofNat sequence.toNat]

def signatureOf8 : Bytes :=
  [71, 208, 222, 82, 202, 112, 16, 77, 38, 160, 14, 59, 72, 138, 231, 177, 7, 142, 247, 130, 235,
    220, 169, 201, 177, 118, 12, 177, 133, 1, 183, 128, 252, 170, 249, 244, 150, 75, 99, 203, 128,
    84, 96, 174, 8, 37, 228, 172, 188, 102, 212, 65, 100, 251, 157, 44, 74, 93, 43, 11, 227, 136,
    154, 8]

def namingLib : NamingLib where
  toIpnsLib := { sampleLib with
    sign := fun _ message =>
      ((signatures ++ [(signaturePrefix ++ dataOf 8, signatureOf8)]).lookup message).getD []
    cborDumps := fun
      | .dict [_, _, _, (_, .int sequence)] => dataOf sequence
      | _ => [] }
  toBase58 _ := "12D3KooWQK1wnefoLrcVHbbnf5tLzbopUd3K3bFAoJpA7YJgL5pV"
  toAscii c := c
  toAscii_of_lt _ _ := rfl

def owner : Peer namingLib := ⟨(), ownerId, true⟩

def idleSys (datastore : Option (Option Bytes)) : Sys := ⟨datastore, .empty, 0, [], []⟩

theorem idleSys_idle (datastore : Option (Option Bytes)) : (idleSys datastore).Idle := ⟨rfl, rfl, rfl⟩

def unresolved : Except PyError (Option Bytes) := .error ⟨.routingError, "value not found"⟩

def publishedAt (c : ℕ) (time : ℤ) : List Event :=
  [.call publishedPath 24 30, .step c (.resolved unresolved year2100 time (year2100 - 24 * 3600000000)),
    .step c (.published .ok)]

def storedAt (c : ℕ) (time : ℤ) : List Event :=
  [.call publishedPath 24 30, .step c (.got true),
    .step c (.resolved unresolved year2100 time (year2100 - 24 * 3600000000)), .step c .stored,
    .step c (.wrote true (year2100 - 24 * 3600000000)), .step c (.published .ok)]

def twoSeconds : List Event := publishedAt 0 6 ++ publishedAt 1 7

def oneSecond : List Event := publishedAt 0 6 ++ publishedAt 1 6

def acrossRestart : List Event := storedAt 0 6 ++ [.restart] ++ storedAt 1 3

def publishedTwice (s : Sys) : Bool := s.records.map Record.sequence = [7, 8]

theorem publishName_sequences_sample :
    (∃ t, publishedTwice t ∧ NeverRepeat namingLib t) ∧ ∃ t, publishedTwice t ∧ NeverRepeat namingLib t := by
  have guarded {p : Prop} [Decidable p] {o : Option Sys} {v : Sys} (e : (if p then o else none) = some v) :
      o = some v ∧ p := by
    split at e
    · exact ⟨e, by assumption⟩
    · exact absurd e (by simp)
  constructor
  · obtain ⟨t, run, ht⟩ := exists_run
      (fun u a => if Remembers namingLib owner u a then step namingLib owner u a else none)
      (idleSys none) twoSeconds publishedTwice (by decide +kernel)
    refine ⟨t, ht, publishName_sequences namingLib owner (idleSys none) t twoSeconds (idleSys_idle _) ?_⟩
    exact .inl (run.mono fun _ _ _ e => guarded e)
  · obtain ⟨t, run, ht⟩ := exists_run
      (fun u a => if WorksAlone u a then step namingLib owner u a else none)
      (idleSys (some none)) acrossRestart publishedTwice (by decide +kernel)
    refine ⟨t, ht, publishName_sequences namingLib owner (idleSys (some none)) t acrossRestart
      (idleSys_idle _) ?_⟩
    exact .inr ⟨rfl, run.mono fun _ _ _ e => guarded e⟩

theorem publishName_sequences_fails :
    ¬∀ (as : List Event) (t : Sys), .restart ∉ as →
      Run (fun u a v => step namingLib owner u a = some v) (idleSys none) as t → NeverRepeat namingLib t := by
  intro hall
  obtain ⟨t, run, ht⟩ := exists_run (step namingLib owner) (idleSys none) oneSecond
    (fun s => s.records.map Record.sequence = [7, 7]) (by decide +kernel)
  have hno : Event.restart ∉ oneSecond := by simp [oneSecond, publishedAt]
  have hdistinct := List.pairwise_map.mpr (hall _ t hno run).distinct
  rw [decide_eq_true_eq.mp ht] at hdistinct
  exact absurd hdistinct (by decide)

end IpfsLite.Naming
