import IpfsLite.Pubsub

namespace IpfsLite.Pubsub

open Runs

variable {toBase58 : Bytes → Except PyError String} {s u v : Api} {e : Event} {topic : String}

def buffered (s : Api) (topic : String) : List Entry := (s.buffers.get? topic).getD []

def deliveredBy (topic : String) (r : Response) : List Entry :=
  if r.topic = topic then r.messages else []

def delivered (s : Api) (topic : String) : List Entry := s.responses.flatMap (deliveredBy topic)

def receivedBy (toBase58 : Bytes → Except PyError String) (topic : String) : Event → List Entry
  | .received t msg now => if t = topic then [entry toBase58 topic msg now] else []
  | _ => []

def received (toBase58 : Bytes → Except PyError String) (topic : String) (es : List Event) : List Entry :=
  es.flatMap (receivedBy toBase58 topic)

def Room (topic : String) (u : Api) (e : Event) : Prop :=
  ∀ msg now, e = .received topic msg now → (buffered u topic).length < maxlen

instance (topic : String) (u : Api) (e : Event) : Decidable (Room topic u e) :=
  match e with
  | .received t msg now =>
    decidable_of_iff (t = topic → (buffered u topic).length < maxlen)
      ⟨fun h _ _ he => h (Event.received.inj he).1, fun h ht => h msg now (ht ▸ rfl)⟩
  | .loopStarts _ | .pubsubSub .. | .poll _ => .isTrue nofun

/-- A poll of a call for the topic: `count` is 0, or the buffer is empty, or it holds exactly
`count` messages, or it holds fewer and the deadline has passed. -/
def Lossless (topic : String) (u : Api) (e : Event) : Prop :=
  ∀ c now, u.call = some c → c.arg = topic → e = .poll now →
    c.count = 0 ∨ buffered u topic = [] ∨ (buffered u topic).length = c.count ∨
      ((buffered u topic).length < c.count ∧ c.deadline ≤ now)

theorem buffered_setdefault (buffers : Buffers) (t : String) :
    ((setdefault buffers t).get? topic).getD [] = (buffers.get? topic).getD [] := by
  unfold setdefault
  split
  · rfl
  · next h =>
    rw [Dict.get?_set]
    split_ifs with ht
    · simp [ht, h]
    · rfl

theorem getPubsubMessages_fst (buffers : Buffers) (t : String) :
    (getPubsubMessages buffers t).1 = (buffers.get? t).getD [] := by
  unfold getPubsubMessages
  split <;> simp_all

theorem getPubsubMessages_snd (buffers : Buffers) (t : String) :
    ((getPubsubMessages buffers t).2.get? topic).getD [] =
      if topic = t then [] else (buffers.get? topic).getD [] := by
  unfold getPubsubMessages
  split
  · split_ifs with ht <;> simp_all
  · split_ifs with ht <;> simp_all
  · rw [Dict.get?_set]
    split_ifs with ht <;> rfl

theorem poll_buffers (s : Api) (c : Polling) (now : ℚ) :
    (poll s c now).buffers = (getPubsubMessages s.buffers c.arg).2 := by
  simp only [poll, apply_ite Api.buffers, ite_self]

theorem poll_buffered (s : Api) (c : Polling) (now : ℚ) :
    buffered (poll s c now) topic = if topic = c.arg then [] else buffered s topic := by
  rw [buffered, poll_buffers, getPubsubMessages_snd, buffered]

def Ends (s : Api) (c : Polling) (now : ℚ) : Prop :=
  (buffered s c.arg ≠ [] ∧ (c.count = 0 ∨ c.count ≤ (buffered s c.arg).length)) ∨ c.deadline ≤ now

instance (s : Api) (c : Polling) (now : ℚ) : Decidable (Ends s c now) :=
  inferInstanceAs (Decidable (_ ∨ _))

def answered (s : Api) (c : Polling) : List Entry :=
  if 0 < c.count then (buffered s c.arg).take c.count else buffered s c.arg

theorem poll_responses (s : Api) (c : Polling) (now : ℚ) :
    (poll s c now).responses =
      if Ends s c now then s.responses ++ [⟨c.arg, answered s c⟩] else s.responses := by
  simp only [poll, getPubsubMessages_fst, apply_ite Api.responses]
  rfl

theorem poll_delivered (s : Api) (c : Polling) (now : ℚ) :
    delivered (poll s c now) topic =
      delivered s topic ++ if topic = c.arg ∧ Ends s c now then answered s c else [] := by
  rw [delivered, poll_responses, delivered]
  by_cases hend : Ends s c now
  · by_cases ht : topic = c.arg
    · simp [deliveredBy, ht, hend]
    · simp [deliveredBy, ht, Ne.symm ht, hend]
  · simp [hend]

theorem answered_length_le (s : Api) (c : Polling) : (answered s c).length ≤ (buffered s c.arg).length := by
  unfold answered
  split_ifs
  · rw [List.length_take]
    omega
  · omega

theorem answered_eq {c : Polling} :
    (answered s c).length = (buffered s c.arg).length ↔ answered s c = buffered s c.arg := by
  unfold answered
  split_ifs with hc
  · rw [List.length_take, List.take_eq_self_iff]
    omega
  · simp

theorem lossless_poll {c : Polling} {now : ℚ} (hcall : u.call = some c) (harg : c.arg = topic) :
    Lossless topic u (.poll now) ↔
      if Ends u c now then answered u c = buffered u c.arg else buffered u c.arg = [] := by
  have hloss : Lossless topic u (.poll now) ↔ c.count = 0 ∨ buffered u topic = [] ∨
      (buffered u topic).length = c.count ∨ ((buffered u topic).length < c.count ∧ c.deadline ≤ now) := by
    constructor
    · intro h
      exact h c now hcall harg rfl
    · intro h c' now' hcall' _ he
      obtain rfl : c = c' := Option.some.inj (hcall.symm.trans hcall')
      obtain rfl : now = now' := Event.poll.inj he
      exact h
  subst harg
  have hends : Ends u c now ↔ ((buffered u c.arg).length ≠ 0 ∧
      (c.count = 0 ∨ c.count ≤ (buffered u c.arg).length)) ∨ c.deadline ≤ now := by
    rw [Ends, ne_eq, ne_eq, List.length_eq_zero_iff]
  have hlen : (answered u c).length =
      if 0 < c.count then min c.count (buffered u c.arg).length else (buffered u c.arg).length := by
    rw [answered, apply_ite List.length, List.length_take]
  rw [hloss, ← answered_eq, ← List.length_eq_zero_iff, hlen]
  by_cases hd : c.deadline ≤ now
  · rw [if_pos (hends.mpr (.inr hd))]
    simp only [hd, and_true]
    split_ifs <;> omega
  · simp only [hd, or_false, and_false] at hends ⊢
    split_ifs with hend hc
    · have := hends.mp hend
      omega
    · have := hends.mp hend
      omega
    · have := mt hends.mpr hend
      omega

def kept (topic : String) (s : Api) : List Entry := delivered s topic ++ buffered s topic

theorem poll_kept_of_lossless {c : Polling} {now : ℚ} (hcall : u.call = some c)
    (hloss : Lossless topic u (.poll now)) : kept topic (poll u c now) = kept topic u := by
  rw [kept, kept, poll_delivered, poll_buffered]
  by_cases ht : topic = c.arg
  · have hpoll := (lossless_poll hcall ht.symm).mp hloss
    by_cases hend : Ends u c now
    · rw [if_pos hend] at hpoll
      simp [ht, hend, hpoll]
    · rw [if_neg hend] at hpoll
      simp [ht, hend, hpoll]
  · simp [ht]

theorem poll_kept_of_not_lossless {c : Polling} {now : ℚ} (hcall : u.call = some c)
    (hloss : ¬Lossless topic u (.poll now)) :
    (kept topic (poll u c now)).length < (kept topic u).length := by
  have ht : c.arg = topic := by
    by_contra hne
    apply hloss
    intro c' now' hcall' harg
    exact absurd (Option.some.inj (hcall.symm.trans hcall') ▸ harg) hne
  rw [lossless_poll hcall ht] at hloss
  rw [kept, kept, poll_delivered, poll_buffered, if_pos ht.symm]
  simp only [List.append_nil, List.length_append, ← ht, true_and]
  by_cases hend : Ends u c now
  · rw [if_pos hend] at hloss ⊢
    have hle := answered_length_le u c
    have hne : (answered u c).length ≠ (buffered u c.arg).length := fun h => hloss (answered_eq.mp h)
    omega
  · rw [if_neg hend] at hloss ⊢
    have hpos := List.length_pos_of_ne_nil hloss
    simp only [List.length_nil]
    omega

theorem lossless_of_not_poll (he : ∀ now, e ≠ .poll now) : Lossless topic u e :=
  fun _ now _ _ h => absurd h (he now)

theorem step_kept (hs : step toBase58 u e = some v) (hroom : Room topic u e) :
    (Lossless topic u e ∧ kept topic v = kept topic u ++ receivedBy toBase58 topic e) ∨
      (¬Lossless topic u e ∧
        (kept topic v).length < (kept topic u ++ receivedBy toBase58 topic e).length) := by
  cases e with
  | loopStarts t =>
    refine .inl ⟨lossless_of_not_poll (by simp), ?_⟩
    obtain rfl := Option.some.inj hs
    simp [kept, delivered, buffered, buffered_setdefault, receivedBy]
  | received t msg now =>
    refine .inl ⟨lossless_of_not_poll (by simp), ?_⟩
    obtain ⟨buffer, hb, rfl⟩ := Option.map_eq_some_iff.mp hs
    by_cases ht : topic = t
    · subst ht
      have hlen : buffer.length < maxlen := by
        have := hroom msg now rfl
        simpa [buffered, hb] using this
      simp [kept, delivered, buffered, receivedBy, append, hlen, hb]
    · simp [kept, delivered, buffered, receivedBy, ht, Ne.symm ht]
  | pubsubSub arg count timeout now =>
    refine .inl ⟨lossless_of_not_poll (by simp), ?_⟩
    simp only [step] at hs
    split_ifs at hs
    obtain rfl := Option.some.inj hs
    simp [kept, delivered, buffered, receivedBy]
  | poll now =>
    obtain ⟨c, hc, rfl⟩ := Option.map_eq_some_iff.mp hs
    by_cases hloss : Lossless topic u (.poll now)
    · refine .inl ⟨hloss, ?_⟩
      simp [poll_kept_of_lossless hc hloss, receivedBy]
    · refine .inr ⟨hloss, ?_⟩
      simpa [receivedBy] using poll_kept_of_not_lossless hc hloss

theorem received_concat (es : List Event) (e : Event) :
    received toBase58 topic (es ++ [e]) = received toBase58 topic es ++ receivedBy toBase58 topic e := by
  simp [received]

def Step (toBase58 : Bytes → Except PyError String) (topic : String) (u : Api) (e : Event) (v : Api) : Prop :=
  step toBase58 u e = some v ∧ Room topic u e

theorem kept_length_le {es : List Event} (h : Run (Step toBase58 topic) .start es s) :
    (kept topic s).length ≤ (received toBase58 topic es).length := by
  induction h with
  | refl => simp [kept, delivered, buffered, Api.start]
  | @tail es u v e _ hstep ih =>
    rw [received_concat, List.length_append]
    obtain ⟨-, hk⟩ | ⟨-, hk⟩ := step_kept hstep.1 hstep.2
    · rw [hk, List.length_append]
      omega
    · rw [List.length_append] at hk
      omega

theorem kept_eq_received {es : List Event}
    (h : Run (fun u e v => Step toBase58 topic u e v ∧ Lossless topic u e) .start es s) :
    kept topic s = received toBase58 topic es := by
  induction h with
  | refl => rfl
  | @tail es u v e _ hstep ih =>
    obtain ⟨⟨hs, hroom⟩, hloss⟩ := hstep
    obtain ⟨-, hk⟩ | ⟨hnot, -⟩ := step_kept hs hroom
    · rw [hk, ih, received_concat]
    · exact absurd hloss hnot

theorem pubsubSub_exactlyOnce {es : List Event} (h : Run (Step toBase58 topic) .start es s) :
    delivered s topic ++ buffered s topic = received toBase58 topic es ↔
      Run (fun u e v => Step toBase58 topic u e v ∧ Lossless topic u e) .start es s := by
  constructor
  · intro heq
    change kept topic s = _ at heq
    induction h with
    | refl => exact .refl
    | @tail es u v e hrun hstep ih =>
      have hle := kept_length_le hrun
      rw [received_concat] at heq
      obtain ⟨hloss, hk⟩ | ⟨-, hk⟩ := step_kept hstep.1 hstep.2
      · rw [hk] at heq
        exact (ih (List.append_cancel_right heq)).tail ⟨hstep, hloss⟩
      · rw [heq, List.length_append, List.length_append] at hk
        omega
  · exact kept_eq_received

def roomStep (topic : String) (u : Api) (e : Event) : Option Api :=
  if Room topic u e then step (fun _ => .ok "") u e else none

theorem roomStep_some (h : roomStep topic u e = some v) : Step (fun _ => .ok "") topic u e v := by
  unfold roomStep at h
  split_ifs at h with hroom
  exact ⟨h, hroom⟩

def sampleCall (count : ℕ) (polls : List ℚ) : List Event :=
  [.loopStarts "news", .received "news" ⟨.peerId (.ok "QmPeer"), some [104, 105]⟩ 1,
    .pubsubSub "news" count 5 2] ++ polls.map .poll

theorem pubsubSub_exactlyOnce_sample :
    ∃ s, s.responses.length = 1 ∧
      Run (fun u e v => Step (fun _ => .ok "") "news" u e v ∧ Lossless "news" u e) .start
        (sampleCall 1 [2]) s := by
  obtain ⟨s, hrun, hend⟩ := exists_run (roomStep "news") .start (sampleCall 1 [2])
    (fun s => s.responses.length = 1 ∧ delivered s "news" ++ buffered s "news" =
      received (fun _ => .ok "") "news" (sampleCall 1 [2])) (by decide +kernel)
  obtain ⟨hlen, hkept⟩ := of_decide_eq_true hend
  exact ⟨s, hlen, (pubsubSub_exactlyOnce (hrun.mono fun _ _ _ => roomStep_some)).mp hkept⟩

theorem pubsubSub_exactlyOnce_fails :
    ¬∀ (topic : String) (es : List Event) (s : Api), Run (Step (fun _ => .ok "") topic) .start es s →
      delivered s topic ++ buffered s topic = received (fun _ => .ok "") topic es := by
  intro h
  obtain ⟨s, hrun, hend⟩ := exists_run (roomStep "news") .start (sampleCall 2 [2, 7])
    (fun s => delivered s "news" ++ buffered s "news" = []) (by decide +kernel)
  have hlost := h "news" _ s (hrun.mono fun _ _ _ => roomStep_some)
  rw [of_decide_eq_true hend] at hlost
  simp [received, sampleCall, receivedBy] at hlost

end IpfsLite.Pubsub
