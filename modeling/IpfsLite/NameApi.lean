import IpfsLite.IpnsExpiry
import IpfsLite.IpnsResolve

/-!
`name/publish` of the HTTP API, with `services/naming_service.py`, and `resolve_name` of any peer: a name
resolves to what was published under it, as long as it was published for, and to nothing else.
-/

namespace IpfsLite.Naming

open Ipns PyInt Runs

def pathPrefixes : List String := ["/ipfs/", "/ipns/", "/dnslink/"]

/-- The value that the service publishes for an argument: a bare CID becomes a path. -/
def recordValue (arg : String) : String :=
  if pathPrefixes.any fun p => p.toList.isPrefixOf arg.toList then arg else "/ipfs/" ++ arg

section Api

variable (lib : NamingLib) (peer : Peer lib)

def lifetimeHours (lifetime : String) : Except PyError ℤ :=
  if lifetime.toList.getLast? = some 'h' then int lib.toAscii (String.ofList lifetime.toList.dropLast)
  else if lifetime.toList.getLast? = some 's' then
    (int lib.toAscii (String.ofList lifetime.toList.dropLast)).map fun n => max 1 (n / 3600)
  else int lib.toAscii lifetime

inductive ApiEvent
  | namePublish (arg lifetime : String)
  | step (c : ℕ) (e : CallEvent)
  | restart

def apiStep (timeout : ℚ) (s : Sys) : ApiEvent → Option Sys
  | .namePublish arg lifetime =>
    match lifetimeHours lib lifetime with
    -- no number: the request is answered with 500
    | .error _ => some s
    | .ok hours => step lib peer s (.call (recordValue arg) hours timeout)
  | .step c e => step lib peer s (.step c e)
  | .restart => step lib peer s .restart

def ApiNext (timeout : ℚ) (s : Sys) (a : ApiEvent) (t : Sys) : Prop := apiStep lib peer timeout s a = some t

def ApiEvent.request : ApiEvent → Option (String × ℤ)
  | .namePublish arg lifetime => (lifetimeHours lib lifetime).toOption.map fun hours => (arg, hours)
  | _ => none

def requests (as : List ApiEvent) : List (String × ℤ) := as.filterMap (ApiEvent.request lib)

def ApiEvent.clock : ApiEvent → Option ℤ
  | .step _ (.resolved _ _ _ now) | .step _ (.wrote _ now) => some now
  | _ => none

structure Made (as : List ApiEvent) (r : Record) (arg : String) (hours now : ℤ) : Prop where
  request : (requests lib as)[r.call]? = some (arg, hours)
  clock : ∃ a ∈ as, a.clock = some now
  created : createIpnsRecord lib.toIpnsLib now peer.privateKey (recordValue arg) r.sequence hours = .ok r.bytes

def Signs (s : Sys) (message : Bytes) : Prop :=
  ∃ r ∈ s.records, ∃ made, lib.parseFromString r.bytes = .ok made ∧
    (message = signaturePrefix ++ made.data ∨ message = made.value ++ (made.validity ++ [0]))

structure Answers (as : List ApiEvent) (s : Sys) : Prop where
  next : s.nextCall = (requests lib as).length
  calls : ∀ c call, s.calls.get? c = some call →
    ∃ arg, (requests lib as)[c]? = some (arg, call.lifetimeHours) ∧ call.value = recordValue arg
  records : ∀ r ∈ s.records, ∃ arg hours now, Made lib peer as r arg hours now
  publishing : ∀ c call, s.calls.get? c = some call → call.phase = .publishing → ∃ r ∈ s.records, r.call = c
  returned : ∀ c name, (c, .ok name) ∈ s.returned → name = lib.toBase58 peer.id ∧ ∃ r ∈ s.records, r.call = c

end Api

section Steps

variable {lib : NamingLib} {peer : Peer lib} {as : List ApiEvent} {s t : Sys} {c : ℕ} {call : Call}

theorem requests_append (as : List ApiEvent) (a : ApiEvent) :
    requests lib (as ++ [a]) = requests lib as ++ (a.request lib).toList := by
  rw [requests, List.filterMap_append]
  cases h : a.request lib with
  | none => simp [requests, h]
  | some q => simp [requests, h]

theorem request_later {q : String × ℤ} (h : (requests lib as)[c]? = some q) (a : ApiEvent) :
    (requests lib (as ++ [a]))[c]? = some q := by
  obtain ⟨hlt, -⟩ := List.getElem?_eq_some_iff.mp h
  rw [requests_append, List.getElem?_append_left hlt, h]

theorem Made.later {r : Record} {arg : String} {hours now : ℤ} (h : Made lib peer as r arg hours now)
    (a : ApiEvent) : Made lib peer (as ++ [a]) r arg hours now := by
  obtain ⟨b, hb, hclock⟩ := h.clock
  exact ⟨request_later h.request a, ⟨b, List.mem_append_left _ hb, hclock⟩, h.created⟩

theorem Answers.later (h : Answers lib peer as s) {a : ApiEvent} (ha : a.request lib = none) :
    Answers lib peer (as ++ [a]) s := by
  refine ⟨?_, ?_, ?_, h.publishing, h.returned⟩
  · rw [h.next, requests_append, ha]
    simp
  · intro c call hc
    obtain ⟨arg, hrequest, hvalue⟩ := h.calls c call hc
    exact ⟨arg, request_later hrequest a, hvalue⟩
  · intro r hr
    obtain ⟨arg, hours, now, hmade⟩ := h.records r hr
    exact ⟨arg, hours, now, hmade.later a⟩

theorem Answers.request (h : Answers lib peer as s) {a : ApiEvent} {arg : String} {hours : ℤ}
    (ha : a.request lib = some (arg, hours)) (timeout : ℚ) :
    Answers lib peer (as ++ [a]) (begin lib peer s (recordValue arg) hours timeout) := by
  have hnext : s.nextCall + 1 = (requests lib (as ++ [a])).length := by
    rw [h.next, requests_append, ha]
    simp
  have hnew : (requests lib (as ++ [a]))[s.nextCall]? = some (arg, hours) := by
    rw [h.next, requests_append, ha]
    simp
  have hcalls (c : ℕ) (call : Call) (hc : s.calls.get? c = some call) :
      ∃ arg, (requests lib (as ++ [a]))[c]? = some (arg, call.lifetimeHours) ∧ call.value = recordValue arg := by
    obtain ⟨arg, hrequest, hvalue⟩ := h.calls c call hc
    exact ⟨arg, request_later hrequest a, hvalue⟩
  have hrecords : ∀ r ∈ s.records, ∃ arg hours now, Made lib peer (as ++ [a]) r arg hours now := by
    intro r hr
    obtain ⟨arg, hours, now, hmade⟩ := h.records r hr
    exact ⟨arg, hours, now, hmade.later a⟩
  unfold begin
  by_cases hrouting : peer.routing = true
  · rw [if_pos hrouting]
    refine ⟨hnext, ?_, hrecords, ?_, h.returned⟩
    · intro c call hc
      rcases get?_of_set hc with ⟨rfl, rfl⟩ | ⟨-, hc⟩
      · exact ⟨arg, hnew, rfl⟩
      · exact hcalls c call hc
    · intro c call hc hphase
      rcases get?_of_set hc with ⟨rfl, rfl⟩ | ⟨-, hc⟩
      · dsimp only at hphase
        split at hphase <;> contradiction
      · exact h.publishing c call hc hphase
  · rw [if_neg hrouting]
    refine ⟨hnext, hcalls, hrecords, h.publishing, ?_⟩
    intro c name hname
    rcases List.mem_append.mp hname with hname | hname
    · exact h.returned c name hname
    · have hfailed := (Prod.mk.inj (List.mem_singleton.mp hname)).2
      contradiction

theorem Answers.setPhase (h : Answers lib peer as s) (hc : s.calls.get? c = some call) {phase : Phase}
    (hphase : phase ≠ .publishing) : Answers lib peer as (s.setPhase c call phase) := by
  refine ⟨h.next, ?_, h.records, ?_, h.returned⟩
  · intro d other hd
    rcases get?_of_set hd with ⟨rfl, rfl⟩ | ⟨-, hd⟩
    · exact h.calls d call hc
    · exact h.calls d other hd
  · intro d other hd hpublishing
    rcases get?_of_set hd with ⟨rfl, rfl⟩ | ⟨-, hd⟩
    · exact absurd hpublishing hphase
    · exact h.publishing d other hd hpublishing

theorem Answers.drop (h : Answers lib peer as s) (c : ℕ) : Answers lib peer as (s.drop c) :=
  ⟨h.next, fun d other hd => h.calls d other (get?_of_drop hd).2, h.records,
    fun d other hd => h.publishing d other (get?_of_drop hd).2, h.returned⟩

theorem Answers.finish (h : Answers lib peer as s) {result : Except PyError String}
    (hresult : ∀ name, result = .ok name → name = lib.toBase58 peer.id ∧ ∃ r ∈ s.records, r.call = c) :
    Answers lib peer as (s.finish c result) := by
  have hdrop := h.drop c
  refine ⟨hdrop.next, hdrop.calls, hdrop.records, hdrop.publishing, ?_⟩
  intro d name hname
  rcases List.mem_append.mp hname with hname | hname
  · exact h.returned d name hname
  · obtain ⟨rfl, hresult'⟩ := Prod.mk.inj (List.mem_singleton.mp hname)
    exact hresult name hresult'.symm

theorem Answers.publish (h : Answers lib peer as s) (hc : s.calls.get? c = some call) (n : ℤ) {now : ℤ}
    (hclock : ∃ a ∈ as, a.clock = some now) : Answers lib peer as (publish lib peer s c call n now) := by
  obtain ⟨arg, hrequest, hvalue⟩ := h.calls c call hc
  unfold Naming.publish
  split
  · next bytes hbytes =>
    rw [hvalue] at hbytes
    have hlater {d : ℕ} (hd : ∃ r ∈ s.records, r.call = d) :
        ∃ r ∈ s.records ++ [⟨c, call.after, n, bytes⟩], r.call = d := by
      obtain ⟨r, hr, hcall⟩ := hd
      exact ⟨r, List.mem_append_left _ hr, hcall⟩
    refine ⟨h.next, ?_, ?_, ?_, ?_⟩
    · intro d other hd
      rcases get?_of_set hd with ⟨rfl, rfl⟩ | ⟨-, hd⟩
      · exact ⟨arg, hrequest, hvalue⟩
      · exact h.calls d other hd
    · intro r hr
      rcases List.mem_append.mp hr with hr | hr
      · exact h.records r hr
      · obtain rfl := List.mem_singleton.mp hr
        exact ⟨arg, call.lifetimeHours, now, hrequest, hclock, hbytes⟩
    · intro d other hd hpublishing
      rcases get?_of_set hd with ⟨rfl, rfl⟩ | ⟨-, hd⟩
      · exact ⟨_, List.mem_append_right _ (List.mem_singleton.mpr rfl), rfl⟩
      · exact hlater (h.publishing d other hd hpublishing)
    · intro d name hname
      obtain ⟨hself, hrecord⟩ := h.returned d name hname
      exact ⟨hself, hlater hrecord⟩
  · exact h.finish fun name hname => by contradiction

theorem Answers.choose (h : Answers lib peer as s) (hc : s.calls.get? c = some call) (n : ℤ) {now : ℤ}
    (hclock : ∃ a ∈ as, a.clock = some now) : Answers lib peer as (choose lib peer s c call n now) := by
  unfold Naming.choose
  split
  · exact h.setPhase hc (by simp)
  · exact h.publish hc n hclock

theorem Answers.step (h : Answers lib peer as s) {c : ℕ} {e : CallEvent}
    (hstep : step lib peer s (.step c e) = some t) : Answers lib peer (as ++ [.step c e]) t := by
  have h : Answers lib peer (as ++ [.step c e]) s := h.later rfl
  have hlast : ApiEvent.step c e ∈ as ++ [.step c e] := by simp
  cases step_cases hstep with
  | got hc hphase ok => exact h.setPhase hc (by simp)
  | resolved hc hphase reply validatedAt time now => exact h.choose hc _ ⟨_, hlast, rfl⟩
  | @stored _ _ n hc hphase =>
    have hset := h.setPhase hc (show Phase.writing n true ≠ .publishing by simp)
    exact ⟨hset.next, hset.calls, hset.records, hset.publishing, hset.returned⟩
  | wrote hc hphase ok now hok => exact h.publish hc _ ⟨_, hlast, rfl⟩
  | published hc hphase outcome =>
    refine h.finish fun name hname => ?_
    cases outcome with
    | ok => exact ⟨(Except.ok.inj hname).symm, h.publishing _ _ hc hphase⟩
    | timedOut => contradiction
    | raises e => contradiction
  | cancelled hc => exact h.drop _

theorem answers_run {timeout : ℚ} (hrun : Run (ApiNext lib peer timeout) s as t)
    (hs : Answers lib peer [] s) : Answers lib peer as t := by
  refine hrun.history (P := fun as u => Answers lib peer as u) ?_ hs
  intro as u a v hu hstep
  cases a with
  | namePublish arg lifetime =>
    simp only [ApiNext, apiStep] at hstep
    split at hstep
    · next e he =>
      obtain rfl := Option.some.inj hstep
      exact hu.later (by simp [ApiEvent.request, he, Except.toOption])
    · next hours hhours =>
      obtain rfl := Option.some.inj hstep
      have hrequest : (ApiEvent.namePublish arg lifetime).request lib = some (arg, hours) := by
        simp [ApiEvent.request, hhours, Except.toOption]
      exact hu.request hrequest timeout
  | step c e => exact hu.step hstep
  | restart =>
    obtain rfl := Option.some.inj hstep
    have hu : Answers lib peer (as ++ [.restart]) u := hu.later rfl
    exact ⟨hu.next, fun c call hc => by simp at hc, hu.records, fun c call hc => by simp at hc, hu.returned⟩

end Steps

section Resolving

variable {lib : NamingLib} {peer : Peer lib} {as : List ApiEvent} {s t : Sys} {r : Record} {arg path : String}
  {hours now : ℤ}

theorem recordValue_path (arg : String) : ∃ rest, recordValue arg = "/" ++ rest := by
  by_cases harg : (pathPrefixes.any fun p => p.toList.isPrefixOf arg.toList) = true
  · obtain ⟨p, hp, hprefix⟩ := List.any_eq_true.mp harg
    obtain ⟨rest, hrest⟩ := List.isPrefixOf_iff_prefix.mp hprefix
    have hslash : ∃ q, p.toList = '/' :: q := by
      simp only [pathPrefixes, List.mem_cons, List.not_mem_nil, or_false] at hp
      rcases hp with rfl | rfl | rfl <;> exact ⟨_, rfl⟩
    obtain ⟨q, hq⟩ := hslash
    refine ⟨String.ofList (q ++ rest), ?_⟩
    rw [recordValue, if_pos harg]
    apply String.toList_inj.mp
    rw [← hrest, hq]
    simp
  · refine ⟨"ipfs/" ++ arg, ?_⟩
    rw [recordValue, if_neg harg]
    apply String.toList_inj.mp
    simp

theorem encodeUtf8_recordValue (arg : String) : ∃ rest, encodeUtf8 (recordValue arg) = 47 :: rest := by
  obtain ⟨rest, hrest⟩ := recordValue_path arg
  have hslash : encodeUtf8 "/" = [47] := by decide
  have happend : encodeUtf8 ("/" ++ rest) = encodeUtf8 "/" ++ encodeUtf8 rest := by simp [encodeUtf8]
  refine ⟨encodeUtf8 rest, ?_⟩
  rw [hrest, happend, hslash]
  rfl

def Record.entry (r : Record) (lib : NamingLib) (peer : Peer lib) (arg : String) (expires : ℤ) : IpnsEntry :=
  createdEntry lib.toIpnsLib peer.privateKey (encodeUtf8 (recordValue arg))
    (encodeUtf8 (formatRfc3339 lib.toIpnsLib expires)) r.sequence

theorem Made.entry (h : Made lib peer as r arg hours now) (hnow : InRange now) :
    InRange (now + hours * 3600000000) ∧ 0 ≤ r.sequence ∧ r.sequence < 2 ^ 64 ∧
      r.bytes = lib.serializeToString (r.entry lib peer arg (now + hours * 3600000000)) := by
  have hcreated := h.created
  unfold createIpnsRecord at hcreated
  split_ifs at hcreated with hsequence hhours
  dsimp only at hcreated
  split_ifs at hcreated with hmax
  obtain ⟨hmin, -⟩ := hnow
  refine ⟨⟨by omega, by omega⟩, by omega, by omega, ?_⟩
  exact (Except.ok.inj hcreated).symm

/-- What `ReadsBack` says of the keys and the codecs, and what the library's instants are. -/
structure Resolvable (lib : NamingLib) : Prop where
  readsBack : ReadsBack lib.toIpnsLib
  parseEmpty : lib.parseFromString [] = .ok {}
  isoformat : ∀ t, InRange t → lib.isoformat t = PyDatetime.isoformat t
  fromisoformat : ∀ t, InRange t → lib.fromisoformat (lib.isoformat t) = .ok ⟨t, some 0⟩

theorem resolveName_ok {time : ℤ} {reply : Option Bytes} {peerId : PeerId}
    (h : resolveName lib time reply peerId = .ok path) :
    ∃ b entry, reply = some b ∧ validateIpnsRecord lib.toIpnsLib time b peerId = .ok entry ∧
      decodeUtf8 entry.value = .ok path := by
  obtain ⟨entry, hentry, hpath⟩ := bind_ok.mp h
  unfold resolveReply at hentry
  split at hentry
  · exact ⟨_, entry, rfl, hentry, hpath⟩
  · contradiction

variable (hlib : Resolvable lib)
include hlib

theorem Made.parsed (h : Made lib peer as r arg hours now) (hnow : InRange now) :
    lib.parseFromString r.bytes = .ok (r.entry lib peer arg (now + hours * 3600000000)) := by
  obtain ⟨-, -, -, hbytes⟩ := h.entry hnow
  rw [hbytes]
  exact hlib.readsBack.parsed _ rfl

theorem Made.nonempty (h : Made lib peer as r arg hours now) (hnow : InRange now) : r.bytes ≠ [] := by
  intro hempty
  have hparsed := h.parsed hlib hnow
  rw [hempty, hlib.parseEmpty] at hparsed
  obtain ⟨rest, hrest⟩ := encodeUtf8_recordValue arg
  have hvalue : [] = encodeUtf8 (recordValue arg) := congrArg IpnsEntry.value (Except.ok.inj hparsed)
  rw [hrest] at hvalue
  contradiction

theorem Made.resolves (h : Made lib peer as r arg hours now) (hnow : InRange now)
    (hid : peer.id = lib.fromPubkey (lib.getPublicKey peer.privateKey)) (time : ℤ) :
    resolveName lib time (some r.bytes) peer.id =
      if now + hours * 3600000000 < time then .error expired else .ok (recordValue arg) := by
  obtain ⟨hexpires, hlow, hhigh, hbytes⟩ := h.entry hnow
  obtain ⟨b, bs, hcons⟩ := List.exists_cons_of_ne_nil (h.nonempty hlib hnow)
  have hsigned := createdEntry_signed hlib.readsBack peer.privateKey (encodeUtf8 (recordValue arg))
    (encodeUtf8 (formatRfc3339 lib.toIpnsLib (now + hours * 3600000000))) hlow hhigh
  have hvalidate : resolveReply lib time (some r.bytes) peer.id =
      validateIpnsRecord lib.toIpnsLib time r.bytes peer.id := by rw [hcons, resolveReply]
  rw [resolveName, hvalidate, hbytes, hid, Record.entry, validate_signed hsigned]
  change ((checkExpiry lib.toIpnsLib time (encodeUtf8 (formatRfc3339 lib.toIpnsLib _))).map _).bind _ = _
  rw [checkExpiry_written hexpires (hlib.isoformat _ hexpires) (hlib.fromisoformat _ hexpires)]
  split_ifs
  · rfl
  · exact decodeUtf8_encodeUtf8 _

theorem Made.authentic (h : Made lib peer as r arg hours now) (hnow : InRange now) {made : IpnsEntry}
    (hmade : lib.parseFromString r.bytes = .ok made) {time : ℤ} {b : Bytes} {entry : IpnsEntry}
    (hentry : validateIpnsRecord lib.toIpnsLib time b peer.id = .ok entry) (h2 : usesV2 entry)
    (hmessage : signedMessage entry = signaturePrefix ++ made.data ∨
      signedMessage entry = made.value ++ (made.validity ++ [0])) :
    entry.value = encodeUtf8 (recordValue arg) ∧ time ≤ now + hours * 3600000000 := by
  obtain ⟨hexpires, hlow, hhigh, -⟩ := h.entry hnow
  obtain rfl := Except.ok.inj ((h.parsed hlib hnow).symm.trans hmade)
  obtain ⟨-, ⟨pubkey, -, hsignature⟩, hexpiry⟩ := validate_ok.mp hentry
  rw [checkSignature, if_pos h2] at hsignature
  obtain ⟨-, hpayload⟩ := checkSignatureV2_ok hsignature
  rw [signedMessage, if_pos h2] at hmessage
  rcases hmessage with hmessage | hmessage
  · obtain ⟨-, hloaded⟩ := hlib.readsBack.loaded (encodeUtf8 (recordValue arg))
      (encodeUtf8 (formatRfc3339 lib.toIpnsLib (now + hours * 3600000000))) r.sequence hlow hhigh
    have hown : matchPayload lib.toIpnsLib (r.entry lib peer arg (now + hours * 3600000000)) = .ok () :=
      matchPayload_recordPayload hlow hhigh rfl rfl hloaded
    obtain ⟨hvalue, hvalidity, -⟩ := matchPayload_inj hown hpayload (List.append_cancel_left hmessage)
    refine ⟨hvalue, ?_⟩
    rw [hvalidity] at hexpiry
    change checkExpiry lib.toIpnsLib time (encodeUtf8 (formatRfc3339 lib.toIpnsLib _)) = _ at hexpiry
    rw [checkExpiry_written hexpires (hlib.isoformat _ hexpires) (hlib.fromisoformat _ hexpires)] at hexpiry
    split_ifs at hexpiry with hlt
    exact not_lt.mp hlt
  · obtain ⟨rest, hrest⟩ := encodeUtf8_recordValue arg
    have hvalue : (r.entry lib peer arg (now + hours * 3600000000)).value = 47 :: rest := hrest
    rw [hvalue] at hmessage
    have hhead := congrArg List.head? hmessage
    exact absurd hhead (by simp [signaturePrefix])

end Resolving

/-- A name that a request returned is the peer's own, and was made a record of; a record resolves to its
request's argument until the hours are over; and a record of anyone that rests on a message which the peer
has signed resolves to what one of the peer's records says, and no longer. -/
theorem namePublish_resolve (lib : NamingLib) (hlib : Resolvable lib) (peer : Peer lib)
    (hid : peer.id = lib.fromPubkey (lib.getPublicKey peer.privateKey)) (timeout : ℚ)
    (stored : Option (Option Bytes)) (as : List ApiEvent) (t : Sys)
    (hrun : Run (ApiNext lib peer timeout) (idleSys stored) as t)
    (hclock : ∀ a ∈ as, ∀ now, a.clock = some now → InRange now) :
    (∀ c name, (c, .ok name) ∈ t.returned → name = lib.toBase58 peer.id ∧ ∃ r ∈ t.records, r.call = c) ∧
    (∀ r ∈ t.records, ∃ arg hours now, Made lib peer as r arg hours now ∧
      ∀ time, resolveName lib time (some r.bytes) peer.id =
        if now + hours * 3600000000 < time then .error expired else .ok (recordValue arg)) ∧
    ∀ time reply path, resolveName lib time reply peer.id = .ok path →
      (∀ b entry, reply = some b → lib.parseFromString b = .ok entry →
        usesV2 entry ∧ Signs lib t (signedMessage entry)) →
      ∃ r ∈ t.records, ∃ arg hours now, Made lib peer as r arg hours now ∧
        path = recordValue arg ∧ time ≤ now + hours * 3600000000 := by
  have hidle : Answers lib peer [] (idleSys stored) :=
    ⟨rfl, fun c call hc => by simp [idleSys] at hc, fun r hr => by simp [idleSys] at hr,
      fun c call hc => by simp [idleSys] at hc, fun c name hname => by simp [idleSys] at hname⟩
  have h := answers_run hrun hidle
  have hrange {r : Record} {arg : String} {hours now : ℤ} (hmade : Made lib peer as r arg hours now) :
      InRange now := by
    obtain ⟨a, ha, hnow⟩ := hmade.clock
    exact hclock a ha now hnow
  refine ⟨h.returned, ?_, ?_⟩
  · intro r hr
    obtain ⟨arg, hours, now, hmade⟩ := h.records r hr
    exact ⟨arg, hours, now, hmade, hmade.resolves hlib (hrange hmade) hid⟩
  · intro time reply path hpath hsigned
    obtain ⟨b, entry, rfl, hentry, hdecoded⟩ := resolveName_ok hpath
    obtain ⟨h2, r, hr, made, hparsed, hmessage⟩ := hsigned b entry rfl (validate_ok.mp hentry).1
    obtain ⟨arg, hours, now, hmade⟩ := h.records r hr
    obtain ⟨hvalue, hlive⟩ := hmade.authentic hlib (hrange hmade) hparsed hentry h2 hmessage
    refine ⟨r, hr, arg, hours, now, hmade, ?_, hlive⟩
    rw [hvalue, decodeUtf8_encodeUtf8] at hdecoded
    exact (Except.ok.inj hdecoded).symm

def recordNamingLib : NamingLib := { namingLib with toIpnsLib := recordLib }

theorem recordNamingLib_resolvable : Resolvable recordNamingLib where
  readsBack := recordLib_readsBack
  parseEmpty := by decide
  isoformat _ _ := rfl
  fromisoformat _ h := fromisoformat_isoformat h

def recordOwner : Peer recordNamingLib := ⟨(), ownerId, true⟩

def publishedCid : String := "bafkreigks6arfsq3xxfpvqrrwonchxcnu6do76auprhhfomao6c273sixm"

def publishedOnce : List ApiEvent :=
  [.namePublish publishedCid "24h",
    .step 0 (.resolved unresolved year2100 6 (year2100 - 24 * 3600000000)), .step 0 (.published .ok)]

def resolvesOnce (s : Sys) : Bool :=
  s.returned.length = 1 && s.records.any fun r => r.call = 0 &&
    (resolveName recordNamingLib year2100 (some r.bytes) ownerId).toOption = some publishedPath

theorem publishedOnce_clock : ∀ a ∈ publishedOnce, ∀ now, a.clock = some now → InRange now := by
  intro a ha now hnow
  simp only [publishedOnce, List.mem_cons, List.not_mem_nil, or_false] at ha
  rcases ha with rfl | rfl | rfl
  · contradiction
  · obtain rfl := Option.some.inj hnow
    exact ⟨by decide, by decide⟩
  · contradiction

theorem namePublish_resolve_once : ∃ t,
    Run (ApiNext recordNamingLib recordOwner 30) (idleSys none) publishedOnce t ∧ resolvesOnce t = true ∧
      ∀ r ∈ t.records, ∃ arg hours now, Made recordNamingLib recordOwner publishedOnce r arg hours now ∧
        ∀ time, resolveName recordNamingLib time (some r.bytes) recordOwner.id =
          if now + hours * 3600000000 < time then .error expired else .ok (recordValue arg) := by
  obtain ⟨t, hrun, hresolves⟩ := exists_run (apiStep recordNamingLib recordOwner 30) (idleSys none)
    publishedOnce resolvesOnce (by decide +kernel)
  exact ⟨t, hrun, hresolves, (namePublish_resolve recordNamingLib recordNamingLib_resolvable recordOwner rfl 30
    none publishedOnce t hrun publishedOnce_clock).2.1⟩

end IpfsLite.Naming
