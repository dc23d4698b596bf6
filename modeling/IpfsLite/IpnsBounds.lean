import IpfsLite.IpnsSequences

/-!
The sequence numbers of `publish_name` against the range of `create_ipns_record`. A number is stored
before its range is checked, and the one after the last number is out of range.
-/

namespace IpfsLite.Naming

open Ipns PyInt Runs

def maxSequence : ℤ := 0xFFFFFFFFFFFFFFFF

def year2200 : ℤ := 7258118400

def Before2200 : Event → Prop
  | .step _ (.resolved _ _ time now) => time < year2200 ∧ now < year2200 * 1000000
  | .step _ (.wrote _ now) => now < year2200 * 1000000
  | _ => True

section Claimed

variable (lib : NamingLib) (peer : Peer lib)

def number (seqBytes : Bytes) : Option ℤ := ((decodeUtf8 seqBytes).bind (int lib.toAscii)).toOption

def HoldsAtMost (limit : ℤ) (s : Sys) : Prop :=
  ∀ b, s.datastore = some (some b) → ∃ n, number lib b = some n ∧ 0 ≤ n ∧ n ≤ limit

def sequenceError : PyError :=
  ⟨.valueError, "Sequence number must be a 64-bit unsigned integer (0 to 2^64-1)"⟩

def Accepts (n : ℤ) : Prop := ∀ now value hours,
  createIpnsRecord lib.toIpnsLib now peer.privateKey value n hours ≠ .error sequenceError

def derived (s : Sys) : Event → Option ℤ
  | .step c (.resolved reply validatedAt time _) =>
    (s.calls.get? c).bind fun call =>
      match call.phase with
      | .resolving last => some (nextSequence last (remoteSequence lib peer validatedAt reply) time)
      | _ => none
  | _ => none

inductive Fails (s : Sys) : Event → Sys → Prop
  | raised {a : Event} {t : Sys} (c : ℕ) (e : PyError) (h : t.returned = s.returned ++ [(c, .error e)]) :
    Fails s a t
  | cancelled (c : ℕ) (t : Sys) : Fails s (.step c .cancelled) t
  | restarted {c : ℕ} {call : Call} (h : s.calls.get? c = some call) (t : Sys) : Fails s .restart t

structure Attempt where
  value : String
  hours : ℤ
  timeout : ℚ
  reply : Except PyError (Option Bytes)
  validatedAt : ℤ
  time : ℤ
  now : ℤ

structure Attempt.Valid (w : Attempt) : Prop where
  hours : 1 ≤ w.hours ∧ w.hours ≤ 876000
  time : w.time < year2200
  now : w.now < year2200 * 1000000
  remote : remoteSequence lib peer w.validatedAt w.reply < maxSequence

def Attempt.events (w : Attempt) (c : ℕ) (stores : Bool) : List Event :=
  .call w.value w.hours w.timeout ::
    if stores then
      [.step c (.got true), .step c (.resolved w.reply w.validatedAt w.time w.now), .step c .stored,
        .step c (.wrote true w.now), .step c (.published .ok)]
    else [.step c (.resolved w.reply w.validatedAt w.time w.now), .step c (.published .ok)]

def Publishes (s : Sys) : Prop := ∀ w : Attempt, w.Valid lib peer →
  ∃ t, (w.events s.nextCall s.datastore.isSome).foldlM (step lib peer) s = some t ∧
    (s.nextCall, .ok (lib.toBase58 peer.id)) ∈ t.returned

structure Unbricked (s : Sys) (a : Event) (t : Sys) : Prop where
  persisted : HoldsAtMost lib maxSequence t
  accepted : ∀ n, derived lib peer s a = some n → Accepts lib peer n
  recovers : peer.routing = true → Fails s a t → Publishes lib peer t

def EndsBadly (s : Sys) : Event → Prop
  | .step c (.wrote _ _) => ∃ call ∈ s.calls.get? c, ¬(1 ≤ call.lifetimeHours ∧ call.lifetimeHours ≤ 876000)
  | .step _ (.published .ok) => False
  | .step _ (.published _) | .step _ .cancelled => True
  | .restart => s.calls.entries ≠ []
  | _ => False

def FindsBelow (s : Sys) : Event → Prop
  | .step c (.resolved reply validatedAt _ _) =>
    s.lastRead c < maxSequence ∧ remoteSequence lib peer validatedAt reply < maxSequence
  | _ => True

/-- Neither is the last number found when a call takes its own, nor is it in the datastore when a call
fails. -/
structure BelowLast (s : Sys) (a : Event) : Prop where
  found : FindsBelow lib peer s a
  left : peer.routing = true → EndsBadly s a → s.kept lib < maxSequence

instance : DecidablePred Before2200
  | .step _ (.resolved ..) => instDecidableAnd
  | .step _ (.wrote ..) => Int.decLt _ _
  | .step _ (.got _) | .step _ .stored | .step _ (.published _) | .step _ .cancelled | .call .. | .restart =>
    .isTrue trivial

instance (s : Sys) : DecidablePred (EndsBadly s)
  | .step c (.wrote _ _) => inferInstanceAs (Decidable (∃ call ∈ s.calls.get? c, _))
  | .step _ (.published .ok) | .step _ (.got _) | .step _ (.resolved ..) | .step _ .stored | .call .. =>
    .isFalse id
  | .step _ (.published .timedOut) | .step _ (.published (.raises _)) | .step _ .cancelled => .isTrue trivial
  | .restart => inferInstanceAs (Decidable (_ ≠ _))

instance (s : Sys) : DecidablePred (FindsBelow lib peer s)
  | .step _ (.resolved ..) => instDecidableAnd
  | .step _ (.got _) | .step _ .stored | .step _ (.wrote ..) | .step _ (.published _) | .step _ .cancelled
  | .call .. | .restart => .isTrue trivial

instance (s : Sys) : DecidablePred (BelowLast lib peer s) := fun _ =>
  decidable_of_iff (_ ∧ _) ⟨fun h => ⟨h.1, h.2⟩, fun h => ⟨h.found, h.left⟩⟩

end Claimed

variable {lib : NamingLib} {peer : Peer lib} {s t : Sys} {a : Event} {c : ℕ} {call : Call} {n : ℤ}

theorem lastSequence_number {b : Bytes} (h : number lib b = some n) : lastSequence lib (.ok (some b)) = n := by
  unfold number at h
  cases b with
  | nil =>
    have hempty : ((decodeUtf8 []).bind (int lib.toAscii)).toOption = none := by
      have hdecode : decodeUtf8 [] = .ok "" := decodeUtf8_encodeUtf8 ""
      rw [hdecode]
      rfl
    rw [hempty] at h
    contradiction
  | cons b bs =>
    cases hint : (decodeUtf8 (b :: bs)).bind (int lib.toAscii) with
    | error e =>
      rw [hint] at h
      contradiction
    | ok m =>
      rw [hint] at h
      obtain rfl := Option.some.inj h
      simp only [lastSequence, hint]

theorem number_encoded (hn : 0 ≤ n) (hl : (Nat.toDigits 10 n.natAbs).length ≤ maxStrDigits) :
    number lib (encodeUtf8 (toString n)) = some n := by
  rw [number, int_encoded hn hl]
  rfl

theorem number_str (hn : 0 ≤ n) (hl : n ≤ maxSequence) : number lib (encodeUtf8 (toString n)) = some n := by
  apply number_encoded hn
  apply length_toDigits_le hn
  unfold maxSequence at hl
  omega

theorem HoldsAtMost.kept {limit : ℤ} (h : HoldsAtMost lib limit s) (hl : 0 ≤ limit) :
    0 ≤ s.kept lib ∧ s.kept lib ≤ limit := by
  have hzero (o : Option (Option Bytes)) (ho : o.join = none) : lastSequence lib (.ok o.join) = 0 := by
    rw [ho]
    rfl
  unfold Sys.kept
  cases hd : s.datastore with
  | none => exact ⟨(hzero none rfl).ge, (hzero none rfl).trans_le hl⟩
  | some o =>
    cases o with
    | none => exact ⟨(hzero (some none) rfl).ge, (hzero (some none) rfl).trans_le hl⟩
    | some b =>
      obtain ⟨n, hn, hpos, hle⟩ := h b hd
      have hlast := lastSequence_number hn
      exact ⟨hpos.trans_eq hlast.symm, hlast.trans_le hle⟩

theorem createIpnsRecord_outOfRange {now hours : ℤ} {value : String} (hn : maxSequence < n) :
    createIpnsRecord lib.toIpnsLib now peer.privateKey value n hours = .error sequenceError := by
  unfold maxSequence at hn
  have hout : ¬(0 ≤ n ∧ n ≤ 0xFFFFFFFFFFFFFFFF) := by omega
  rw [createIpnsRecord, if_pos hout, sequenceError]

theorem createIpnsRecord_badLifetime {now hours : ℤ} {value : String} (hn : 0 ≤ n) (hl : n ≤ maxSequence)
    (hh : ¬(1 ≤ hours ∧ hours ≤ 876000)) :
    createIpnsRecord lib.toIpnsLib now peer.privateKey value n hours =
      .error ⟨.valueError, "lifetime_hours must be between 1 and 876000 (100 years)"⟩ := by
  rw [createIpnsRecord, if_neg (not_not.mpr ⟨hn, hl⟩), if_pos hh]

variable (lib peer) in
theorem createIpnsRecord_made {now hours : ℤ} (value : String) (hn : 0 ≤ n) (hl : n ≤ maxSequence)
    (hh : 1 ≤ hours ∧ hours ≤ 876000) (hnow : now < year2200 * 1000000) :
    ∃ bytes, createIpnsRecord lib.toIpnsLib now peer.privateKey value n hours = .ok bytes := by
  have hdate : ¬datetimeMax < now + hours * 3600000000 := by
    unfold year2200 at hnow
    unfold datetimeMax
    omega
  rw [createIpnsRecord, if_neg (not_not.mpr ⟨hn, hl⟩), if_neg (not_not.mpr hh)]
  exact ⟨_, if_neg hdate⟩

theorem le_of_accepts (h : Accepts lib peer n) : n ≤ maxSequence := by
  by_contra hlt
  exact h 0 "" 0 (createIpnsRecord_outOfRange (Int.not_le.mp hlt))

variable (peer) in
theorem accepts_iff (hn : 0 ≤ n) : Accepts lib peer n ↔ n ≤ maxSequence := by
  refine ⟨le_of_accepts, fun hle now value hours hrejected => ?_⟩
  rw [createIpnsRecord, if_neg (not_not.mpr ⟨hn, hle⟩)] at hrejected
  split at hrejected
  · exact absurd hrejected (by decide)
  · dsimp only at hrejected
    split at hrejected
    · exact absurd hrejected (by decide)
    · contradiction

theorem nextSequence_le_iff {last remote time : ℤ} (ht : time < year2200) :
    nextSequence last remote time ≤ maxSequence ↔ last < maxSequence ∧ remote < maxSequence := by
  unfold nextSequence
  unfold year2200 at ht
  unfold maxSequence
  omega

section Alone

variable (hc : s.calls.get? c = some call)

include hc

theorem step_got (hphase : call.phase = .reading) :
    step lib peer s (.step c (.got true)) = some (s.setPhase c call (.resolving (s.kept lib))) := by
  simp [step, hc, stepCall, hphase, Sys.kept]

theorem step_resolved {last : ℤ} (hphase : call.phase = .resolving last) (reply : Except PyError (Option Bytes))
    (validatedAt time now : ℤ) : step lib peer s (.step c (.resolved reply validatedAt time now)) =
      some (choose lib peer s c call
        (nextSequence last (remoteSequence lib peer validatedAt reply) time) now) := by
  simp [step, hc, stepCall, hphase]

theorem step_stored (hphase : call.phase = .writing n false) :
    step lib peer s (.step c .stored) = some { s.setPhase c call (.writing n true) with
      datastore := some (some (encodeUtf8 (toString n))) } := by
  simp [step, hc, stepCall, hphase]

theorem step_wrote (hphase : call.phase = .writing n true) (now : ℤ) :
    step lib peer s (.step c (.wrote true now)) = some (publish lib peer s c call n now) := by
  simp [step, hc, stepCall, hphase]

theorem step_published (hphase : call.phase = .publishing) :
    step lib peer s (.step c (.published .ok)) = some (s.finish c (.ok (lib.toBase58 peer.id))) := by
  simp [step, hc, stepCall, hphase, result]

end Alone

theorem get?_setPhase (s : Sys) (c : ℕ) (call : Call) (phase : Phase) :
    (s.setPhase c call phase).calls.get? c = some { call with phase := phase } := by
  simp [Sys.setPhase]

theorem choose_stores (hd : s.datastore.isSome) (hn : 0 ≤ n) (hl : n ≤ 2 ^ 64) (now : ℤ) :
    choose lib peer s c call n now = s.setPhase c call (.writing n false) := by
  obtain ⟨stored, hd⟩ := Option.isSome_iff_exists.mp hd
  have hstr : str n = .ok (toString n) := by
    rw [str, if_neg (Nat.not_lt.mpr (length_toDigits_le hn hl))]
  simp only [choose, hd, hstr]

theorem choose_publishes (hd : s.datastore = none) (now : ℤ) :
    choose lib peer s c call n now = publish lib peer s c call n now := by
  simp only [choose, hd]

theorem publish_made {now : ℤ} (hn : 0 ≤ n) (hl : n ≤ maxSequence)
    (hh : 1 ≤ call.lifetimeHours ∧ call.lifetimeHours ≤ 876000) (hnow : now < year2200 * 1000000) :
    (publish lib peer s c call n now).calls.get? c = some { call with phase := .publishing } := by
  obtain ⟨bytes, hbytes⟩ := createIpnsRecord_made lib peer call.value hn hl hh hnow
  simp only [publish, hbytes]
  exact get?_setPhase s c call .publishing

variable (lib peer s c call) in
theorem publish_outOfRange (hn : maxSequence < n) (now : ℤ) :
    publish lib peer s c call n now = s.finish c (.error (failed sequenceError)) := by
  simp only [publish, createIpnsRecord_outOfRange hn]

theorem foldlM_step (h : step lib peer s a = some t) (as : List Event) :
    (a :: as).foldlM (step lib peer) s = as.foldlM (step lib peer) t := by
  rw [List.foldlM_cons, h]
  rfl

theorem attempt_chooses (hr : peer.routing = true) (w : Attempt) :
    ∃ (s' : Sys) (call : Call), s'.calls.get? s.nextCall = some call ∧ call.lifetimeHours = w.hours ∧
      s'.datastore = s.datastore ∧
      (w.events s.nextCall s.datastore.isSome).foldlM (step lib peer) s =
        ((w.events s.nextCall s.datastore.isSome).drop (if s.datastore.isSome then 3 else 2)).foldlM
          (step lib peer) (choose lib peer s' s.nextCall call
            (nextSequence (s.kept lib) (remoteSequence lib peer w.validatedAt w.reply) w.time) w.now) := by
  let call : Call := ⟨w.value, w.hours, w.timeout, s.returnedIds,
    if s.datastore.isSome then .reading else .resolving 0⟩
  have hbegin : step lib peer s (.call w.value w.hours w.timeout) =
      some { s with calls := s.calls.set s.nextCall call, nextCall := s.nextCall + 1 } := by
    simp [step, begin, hr, call]
  let begun : Sys := { s with calls := s.calls.set s.nextCall call, nextCall := s.nextCall + 1 }
  have hget : begun.calls.get? s.nextCall = some call := by simp [begun]
  unfold Attempt.events
  cases hd : s.datastore with
  | none =>
    have hkept : s.kept lib = 0 := by
      rw [Sys.kept, hd]
      rfl
    have hphase : call.phase = .resolving (s.kept lib) := by
      rw [hkept]
      simp [call, hd]
    refine ⟨begun, call, hget, rfl, hd, ?_⟩
    rw [foldlM_step hbegin, Option.isSome_none, if_neg (by decide),
      foldlM_step (step_resolved hget hphase w.reply w.validatedAt w.time w.now)]
    rfl
  | some stored =>
    have hphase : call.phase = .reading := by simp [call, hd]
    refine ⟨begun.setPhase s.nextCall call (.resolving (s.kept lib)),
      { call with phase := .resolving (s.kept lib) }, get?_setPhase _ _ call _, rfl, hd, ?_⟩
    rw [foldlM_step hbegin, Option.isSome_some, if_pos rfl, foldlM_step (step_got hget hphase),
      foldlM_step (step_resolved (get?_setPhase _ _ call _) rfl w.reply w.validatedAt w.time w.now)]
    rfl

variable (lib peer s c call) in
theorem publish_returns (hn : 0 ≤ n) (hl : n ≤ maxSequence)
    (hh : 1 ≤ call.lifetimeHours ∧ call.lifetimeHours ≤ 876000) {now : ℤ} (hnow : now < year2200 * 1000000) :
    ∃ t, [Event.step c (.published .ok)].foldlM (step lib peer) (publish lib peer s c call n now) = some t ∧
      (c, .ok (lib.toBase58 peer.id)) ∈ t.returned := by
  have hget : (publish lib peer s c call n now).calls.get? c = some { call with phase := .publishing } :=
    publish_made hn hl hh hnow
  exact ⟨_, foldlM_step (step_published hget rfl) [], List.mem_append_right _ (List.mem_singleton.mpr rfl)⟩

theorem publishes_of_kept (hr : peer.routing = true) (hk : s.kept lib < maxSequence) : Publishes lib peer s := by
  intro w hw
  obtain ⟨s', call, hget, hhours, hds, hfold⟩ := attempt_chooses hr w
  have hn := (nextSequence_pos lib peer (s.kept lib) w.time w.validatedAt w.reply).2.le
  have hl := (nextSequence_le_iff hw.time).mpr ⟨hk, hw.remote⟩
  have hh : 1 ≤ call.lifetimeHours ∧ call.lifetimeHours ≤ 876000 := hhours ▸ hw.hours
  rw [hfold]
  generalize nextSequence (s.kept lib) (remoteSequence lib peer w.validatedAt w.reply) w.time = n at hn hl
  cases hd : s.datastore with
  | none =>
    rw [choose_publishes (hds.trans hd)]
    exact publish_returns lib peer s' s.nextCall call hn hl hh hw.now
  | some stored =>
    have hsome : s'.datastore.isSome := by rw [hds, hd, Option.isSome_some]
    have h64 : n ≤ 2 ^ 64 := by
      unfold maxSequence at hl
      omega
    let writing := s'.setPhase s.nextCall call (.writing n false)
    have hwriting : writing.calls.get? s.nextCall = some { call with phase := .writing n false } :=
      get?_setPhase s' s.nextCall call _
    let wrote : Sys := { writing.setPhase s.nextCall { call with phase := .writing n false } (.writing n true) with
      datastore := some (some (encodeUtf8 (toString n))) }
    have hwrote : wrote.calls.get? s.nextCall = some { call with phase := .writing n true } :=
      get?_setPhase writing s.nextCall _ _
    obtain ⟨t, ht, hreturned⟩ := publish_returns lib peer wrote s.nextCall { call with phase := .writing n true } hn hl
      hh hw.now
    refine ⟨t, ?_, hreturned⟩
    rw [choose_stores hsome hn h64]
    exact (foldlM_step (step_stored hwriting rfl) _).trans ((foldlM_step (step_wrote hwrote rfl w.now) _).trans ht)

theorem not_publishes (hr : peer.routing = true) (hk : s.kept lib = maxSequence) : ¬Publishes lib peer s := by
  intro h
  let w : Attempt := ⟨"", 1, 0, .ok none, 0, 0, 0⟩
  have hremote : remoteSequence lib peer 0 (.ok none) = 0 := rfl
  have hvalid : w.Valid lib peer := ⟨by decide, by decide, by decide, by
    change remoteSequence lib peer 0 (.ok none) < maxSequence
    rw [hremote]
    decide⟩
  obtain ⟨t, ht, -⟩ := h w hvalid
  obtain ⟨s', call, hget, hhours, hds, hfold⟩ := attempt_chooses (s := s) hr w
  have hn : nextSequence (s.kept lib) (remoteSequence lib peer w.validatedAt w.reply) w.time = 2 ^ 64 := by
    change nextSequence (s.kept lib) (remoteSequence lib peer 0 (.ok none)) 0 = 2 ^ 64
    rw [hk, hremote]
    decide
  have hsome : s.datastore.isSome := by
    cases hd : s.datastore with
    | none =>
      have hzero : s.kept lib = 0 := by
        rw [Sys.kept, hd]
        rfl
      exact absurd (hzero.symm.trans hk) (by decide)
    | some stored => rfl
  let writing := s'.setPhase s.nextCall call (.writing (2 ^ 64) false)
  have hwriting : writing.calls.get? s.nextCall = some { call with phase := .writing (2 ^ 64) false } :=
    get?_setPhase s' s.nextCall call _
  let wrote : Sys :=
    { writing.setPhase s.nextCall { call with phase := .writing (2 ^ 64) false } (.writing (2 ^ 64) true) with
      datastore := some (some (encodeUtf8 (toString (2 ^ 64 : ℤ)))) }
  have hwrote : wrote.calls.get? s.nextCall = some { call with phase := .writing (2 ^ 64) true } :=
    get?_setPhase writing s.nextCall _ _
  have hrejected := publish_outOfRange lib peer wrote s.nextCall { call with phase := .writing (2 ^ 64) true }
    (show maxSequence < 2 ^ 64 by decide) w.now
  have hlast : step lib peer (wrote.finish s.nextCall (.error (failed sequenceError)))
      (.step s.nextCall (.published .ok)) = none := by
    simp [step, Sys.finish]
  rw [hfold, hn, choose_stores (by rw [hds, hsome]) (by decide) le_rfl, hsome] at ht
  have hnone : some t = none := calc
    some t = [Event.step s.nextCall (.wrote true w.now), .step s.nextCall (.published .ok)].foldlM
        (step lib peer) wrote := ht.symm.trans (foldlM_step (step_stored hwriting rfl) _)
    _ = [Event.step s.nextCall (.published .ok)].foldlM (step lib peer)
        (wrote.finish s.nextCall (.error (failed sequenceError))) := by
      rw [foldlM_step (step_wrote hwrote rfl w.now), hrejected]
    _ = none := by
      rw [List.foldlM_cons, hlast]
      rfl
  contradiction

theorem publishes_iff (hr : peer.routing = true) (h : HoldsAtMost lib maxSequence s) :
    Publishes lib peer s ↔ s.kept lib < maxSequence := by
  constructor
  · intro hp
    by_contra hlt
    have hle := (h.kept (by decide)).2
    exact not_publishes hr (le_antisymm hle (Int.not_lt.mp hlt)) hp
  · exact publishes_of_kept hr

section Steps

structure Bounded (lib : NamingLib) (s : Sys) : Prop where
  datastore : HoldsAtMost lib maxSequence s
  writing : ∀ c call n stored, s.calls.get? c = some call → call.phase = .writing n stored →
    0 ≤ n ∧ n ≤ maxSequence

theorem bounded_setPhase (h : Bounded lib s) {phase : Phase}
    (hp : ∀ n stored, phase = .writing n stored → 0 ≤ n ∧ n ≤ maxSequence) :
    Bounded lib (s.setPhase c call phase) := by
  refine ⟨h.datastore, fun d other n stored hd hphase => ?_⟩
  obtain ⟨rfl, rfl⟩ | ⟨-, hold⟩ := get?_of_set hd
  · exact hp n stored hphase
  · exact h.writing d other n stored hold hphase

theorem bounded_drop (h : Bounded lib s) : Bounded lib (s.drop c) :=
  ⟨h.datastore, fun d other n stored hd => h.writing d other n stored (get?_of_drop hd).2⟩

theorem bounded_finish (h : Bounded lib s) (r : Except PyError String) : Bounded lib (s.finish c r) :=
  ⟨h.datastore, (bounded_drop (c := c) h).writing⟩

theorem bounded_publish (h : Bounded lib s) (now : ℤ) : Bounded lib (publish lib peer s c call n now) := by
  unfold publish
  split
  · have hset : Bounded lib (s.setPhase c call .publishing) := bounded_setPhase h (by simp)
    exact ⟨hset.datastore, hset.writing⟩
  · exact bounded_finish h _

theorem bounded_choose (h : Bounded lib s) (hn : 0 ≤ n) (hl : n ≤ maxSequence) (now : ℤ) :
    Bounded lib (choose lib peer s c call n now) := by
  unfold choose
  split
  · apply bounded_setPhase h
    intro m stored hm
    obtain ⟨rfl, -⟩ := Phase.writing.inj hm
    exact ⟨hn, hl⟩
  · exact bounded_publish h now

theorem bounded_begin (h : Bounded lib s) (value : String) (hours : ℤ) (timeout : ℚ) :
    Bounded lib (begin lib peer s value hours timeout) := by
  unfold begin
  split
  · refine ⟨h.datastore, fun d other n stored hd hphase => ?_⟩
    obtain ⟨rfl, rfl⟩ | ⟨-, hold⟩ := get?_of_set hd
    · dsimp only at hphase
      split at hphase <;> contradiction
    · exact h.writing d other n stored hold hphase
  · exact ⟨h.datastore, h.writing⟩

theorem bounded_stored (h : Bounded lib s) (hc : s.calls.get? c = some call)
    (hphase : call.phase = .writing n false) :
    Bounded lib { s.setPhase c call (.writing n true) with
      datastore := some (some (encodeUtf8 (toString n))) } := by
  obtain ⟨hn, hl⟩ := h.writing c call n false hc hphase
  have hset : Bounded lib (s.setPhase c call (.writing n true)) := by
    apply bounded_setPhase h
    intro m stored hm
    obtain ⟨rfl, -⟩ := Phase.writing.inj hm
    exact ⟨hn, hl⟩
  refine ⟨fun b hb => ?_, hset.writing⟩
  obtain rfl := Option.some.inj (Option.some.inj hb)
  exact ⟨n, number_str hn hl, hn, hl⟩

theorem bounded_step (h : Bounded lib s) (e : step lib peer s a = some t)
    (hd : ∀ n, derived lib peer s a = some n → n ≤ maxSequence) : Bounded lib t := by
  cases step_cases e with
  | call value hours timeout => exact bounded_begin h value hours timeout
  | restart => exact ⟨h.datastore, by simp⟩
  | got hc hphase ok => exact bounded_setPhase h (by simp)
  | @resolved c call last hc hphase reply validatedAt time now =>
    have hderived := hd (nextSequence last (remoteSequence lib peer validatedAt reply) time)
      (by simp [derived, hc, hphase])
    exact bounded_choose h (nextSequence_pos lib peer last time validatedAt reply).2.le hderived now
  | stored hc hphase => exact bounded_stored h hc hphase
  | wrote hc hphase ok now hok => exact bounded_publish h now
  | published hc hphase outcome => exact bounded_finish h _
  | cancelled hc => exact bounded_drop h

theorem accepted_iff_found (e : step lib peer s a = some t) (hclock : Before2200 a) :
    (∀ n, derived lib peer s a = some n → Accepts lib peer n) ↔ FindsBelow lib peer s a := by
  cases step_cases e with
  | @resolved c call last hc hphase reply validatedAt time now =>
    have hlast : s.lastRead c = last := by simp [Sys.lastRead, hc, hphase]
    have hderived : derived lib peer s (.step c (.resolved reply validatedAt time now)) =
        some (nextSequence last (remoteSequence lib peer validatedAt reply) time) := by
      simp [derived, hc, hphase]
    have hn := (nextSequence_pos lib peer last time validatedAt reply).2.le
    rw [FindsBelow, hlast, ← nextSequence_le_iff hclock.1, ← accepts_iff peer hn]
    constructor
    · exact fun h => h _ hderived
    · intro h n hn
      rw [hderived] at hn
      exact Option.some.inj hn ▸ h
  | _ => exact iff_of_true (fun n hn => absurd hn (by simp [derived])) trivial

theorem publish_datastore (s : Sys) (c : ℕ) (call : Call) (n now : ℤ) :
    (publish lib peer s c call n now).datastore = s.datastore := by
  unfold publish
  split <;> rfl

theorem not_raised {r : List (ℕ × Except PyError String)} {x : ℕ × Except PyError String} : r ≠ r ++ [x] := by
  intro h
  have hlen := congrArg List.length h
  simp at hlen

theorem fails_of_endsBadly (h : Bounded lib s) (e : step lib peer s a = some t) (hends : EndsBadly s a) :
    Fails s a t ∧ t.kept lib = s.kept lib := by
  cases step_cases e with
  | restart =>
    obtain ⟨⟨c, call⟩, hc⟩ := List.exists_mem_of_ne_nil _ hends
    exact ⟨.restarted (Dict.get?_eq_some.mpr hc) _, rfl⟩
  | @wrote c call n stored hc hphase ok now hok =>
    obtain ⟨other, hother, hhours⟩ := hends
    obtain rfl := Option.some.inj (hc.symm.trans hother)
    obtain ⟨hn, hl⟩ := h.writing c call n stored hc hphase
    have hfailed : publish lib peer s c call n now = s.finish c (.error (failed
        ⟨.valueError, "lifetime_hours must be between 1 and 876000 (100 years)"⟩)) := by
      simp only [publish, createIpnsRecord_badLifetime hn hl hhours]
    rw [hfailed]
    exact ⟨.raised c _ rfl, rfl⟩
  | @published c call hc hphase outcome =>
    cases outcome with
    | ok => exact absurd hends id
    | timedOut => exact ⟨.raised c _ rfl, rfl⟩
    | raises error => exact ⟨.raised c _ rfl, rfl⟩
  | cancelled hc => exact ⟨.cancelled _ _, rfl⟩
  | call => exact absurd hends id
  | got => exact absurd hends id
  | resolved => exact absurd hends id
  | stored => exact absurd hends id

theorem not_fails_of_quiet (hsame : t.returned = s.returned) (hcancelled : ∀ c, a ≠ .step c .cancelled)
    (hrestart : a ≠ .restart) : ¬Fails s a t := by
  intro hf
  cases hf with
  | raised c error hreturned => exact not_raised (hsame.symm.trans hreturned)
  | cancelled c => exact hcancelled c rfl
  | restarted hc => exact hrestart rfl

theorem endsBadly_of_fails (h : Bounded lib s) (e : step lib peer s a = some t) (hr : peer.routing = true)
    (hclock : Before2200 a) (hd : ∀ n, derived lib peer s a = some n → n ≤ maxSequence) (hf : Fails s a t) :
    t.kept lib = s.kept lib ∧ (EndsBadly s a ∨ s.kept lib < maxSequence) := by
  cases step_cases e with
  | call value hours timeout =>
    have hsame : (begin lib peer s value hours timeout).returned = s.returned := by
      rw [begin, if_pos hr]
    exact absurd hf (not_fails_of_quiet hsame (by simp) (by simp))
  | restart =>
    cases hf with
    | raised c error hreturned => exact absurd hreturned not_raised
    | restarted hc => exact ⟨rfl, .inl (List.ne_nil_of_mem (Dict.get?_eq_some.mp hc))⟩
  | got hc hphase ok => exact absurd hf (not_fails_of_quiet rfl (by simp) (by simp))
  | @resolved c call last hc hphase reply validatedAt time now =>
    have hn := (nextSequence_pos lib peer last time validatedAt reply).2.le
    have hl := hd (nextSequence last (remoteSequence lib peer validatedAt reply) time)
      (by simp [derived, hc, hphase])
    generalize nextSequence last (remoteSequence lib peer validatedAt reply) time = n at *
    cases hds : s.datastore with
    | none =>
      have hkept : s.kept lib = 0 := by
        rw [Sys.kept, hds]
        rfl
      refine ⟨?_, .inr (hkept.trans_lt (by decide))⟩
      rw [choose_publishes hds, Sys.kept, publish_datastore, Sys.kept]
    | some stored =>
      have h64 : n ≤ 2 ^ 64 := by
        unfold maxSequence at hl
        omega
      have hsome : s.datastore.isSome := Option.isSome_iff_exists.mpr ⟨stored, hds⟩
      have hsame : (choose lib peer s c call n now).returned = s.returned := by
        rw [choose_stores hsome hn h64]
        rfl
      exact absurd hf (not_fails_of_quiet hsame (by simp) (by simp))
  | stored hc hphase => exact absurd hf (not_fails_of_quiet rfl (by simp) (by simp))
  | @wrote c call n stored hc hphase ok now hok =>
    obtain ⟨hn, hl⟩ := h.writing c call n stored hc hphase
    have hkept : (publish lib peer s c call n now).kept lib = s.kept lib := by
      rw [Sys.kept, publish_datastore, Sys.kept]
    by_cases hhours : 1 ≤ call.lifetimeHours ∧ call.lifetimeHours ≤ 876000
    · obtain ⟨bytes, hbytes⟩ := createIpnsRecord_made lib peer call.value hn hl hhours hclock
      have hsame : (publish lib peer s c call n now).returned = s.returned := by
        simp only [publish, hbytes]
        rfl
      exact absurd hf (not_fails_of_quiet hsame (by simp) (by simp))
    · exact ⟨hkept, .inl ⟨call, hc, hhours⟩⟩
  | @published c call hc hphase outcome =>
    cases outcome with
    | ok =>
      cases hf with
      | raised d error hreturned =>
        have hlast := (List.append_inj' hreturned rfl).2
        simp [result] at hlast
    | timedOut => exact ⟨rfl, .inl trivial⟩
    | raises error => exact ⟨rfl, .inl trivial⟩
  | cancelled hc => exact ⟨rfl, .inl trivial⟩

theorem unbricked_iff (h : Bounded lib s) (e : step lib peer s a = some t) (hclock : Before2200 a) :
    Unbricked lib peer s a t ↔ BelowLast lib peer s a := by
  constructor
  · intro hu
    refine ⟨(accepted_iff_found e hclock).mp hu.accepted, fun hr hends => ?_⟩
    obtain ⟨hfails, hkept⟩ := fails_of_endsBadly h e hends
    rw [← hkept]
    exact (publishes_iff hr hu.persisted).mp (hu.recovers hr hfails)
  · intro hb
    have haccepted := (accepted_iff_found e hclock).mpr hb.found
    have hbound (n : ℤ) (hn : derived lib peer s a = some n) : n ≤ maxSequence := le_of_accepts (haccepted n hn)
    have ht := bounded_step h e hbound
    refine ⟨ht.datastore, haccepted, fun hr hfails => ?_⟩
    obtain ⟨hkept, hends | hbelow⟩ := endsBadly_of_fails h e hr hclock hbound hfails
    · exact (publishes_iff hr ht.datastore).mpr (hkept.trans_lt (hb.left hr hends))
    · exact (publishes_iff hr ht.datastore).mpr (hkept.trans_lt hbelow)

end Steps

/-- The runs in which no step bricks the name are those in which every step stays below the last number. -/
theorem publishName_unbricked_iff (lib : NamingLib) (peer : Peer lib) (s t : Sys) (as : List Event)
    (hs : HoldsAtMost lib (maxSequence - 1) s) (hcalls : s.calls = .empty) :
    Run (fun u a v => step lib peer u a = some v ∧ Before2200 a ∧ Unbricked lib peer u a v) s as t ↔
      Run (fun u a v => step lib peer u a = some v ∧ Before2200 a ∧ BelowLast lib peer u a) s as t := by
  apply Run.congr_of_invariant (P := Bounded lib)
  · rintro u a v hu ⟨he, hclock, hun⟩
    exact bounded_step hu he fun n hn => le_of_accepts (hun.accepted n hn)
  · rintro u a v hu
    refine and_congr_right fun he => and_congr_right fun hclock => unbricked_iff hu he hclock
  · refine ⟨fun b hb => ?_, by simp [hcalls]⟩
    obtain ⟨n, hn, hpos, hle⟩ := hs b hb
    exact ⟨n, hn, hpos, hle.trans (by decide)⟩

def secondFails : List Event :=
  storedAt 0 6 ++ (storedAt 1 7).dropLast ++ [.step 1 (.published .timedOut)]

def holdsEight (s : Sys) : Bool := s.datastore = some (some (encodeUtf8 "8"))

theorem publishName_unbricked_second : ∃ t, holdsEight t ∧ Run (fun u a v =>
    step namingLib owner u a = some v ∧ Before2200 a ∧ Unbricked namingLib owner u a v) (idleSys (some none))
      secondFails t := by
  obtain ⟨t, run, ht⟩ := exists_run (fun u a => if Before2200 a ∧ BelowLast namingLib owner u a then
    step namingLib owner u a else none) (idleSys (some none)) secondFails holdsEight (by decide +kernel)
  refine ⟨t, ht, (publishName_unbricked_iff namingLib owner (idleSys (some none)) t secondFails ?_ rfl).mpr ?_⟩
  · intro b hb
    simp [idleSys] at hb
  · apply run.mono
    intro u a v e
    split at e
    · next h => exact ⟨e, h⟩
    · contradiction

def lastButOne : Option (Option Bytes) := some (some (encodeUtf8 "18446744073709551614"))

theorem publishName_unbricked_fails :
    ¬∀ (as : List Event) (s t : Sys), HoldsAtMost namingLib (maxSequence - 1) s → s.calls = .empty →
      (∀ a ∈ as, Before2200 a) → Run (fun u a v => step namingLib owner u a = some v) s as t →
        HoldsAtMost namingLib maxSequence t := by
  intro hall
  obtain ⟨t, run, ht⟩ := exists_run (step namingLib owner) (idleSys lastButOne)
    (storedAt 0 6 ++ (storedAt 1 7).take 4)
    (fun s => s.datastore = some (some (encodeUtf8 "18446744073709551616"))) (by decide +kernel)
  have hstart : HoldsAtMost namingLib (maxSequence - 1) (idleSys lastButOne) := by
    intro b hb
    obtain rfl := Option.some.inj (Option.some.inj hb)
    exact ⟨18446744073709551614, number_str (show (0 : ℤ) ≤ 18446744073709551614 by decide) (by decide),
      by decide, by decide⟩
  obtain ⟨n, hn, -, hle⟩ := hall _ _ t hstart rfl (by decide) run _ (decide_eq_true_eq.mp ht)
  have hfound : number namingLib (encodeUtf8 "18446744073709551616") = some 18446744073709551616 :=
    number_encoded (show (0 : ℤ) ≤ 18446744073709551616 by decide) (by decide +kernel)
  obtain rfl := Option.some.inj (hn.symm.trans hfound)
  exact absurd hle (by decide)

end IpfsLite.Naming
