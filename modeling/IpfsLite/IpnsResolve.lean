import IpfsLite.IpnsSequences

/-! `resolve_name` of any name, and which exceptions a record from the routing layer causes. -/

namespace IpfsLite.Naming

open Ipns

/-- How `get_value` of the routing layer ends before the time is up, if it does. -/
inductive Fetched
  | reply (recordBytes : Option Bytes)
  | raises (e : PyError)
  | timedOut

section Resolve

variable (lib : NamingLib)

/-- `_resolve_entry` once the routing layer has replied. -/
def resolveReply (now : ℤ) (recordBytes : Option Bytes) (peerId : PeerId) : Except PyError IpnsEntry :=
  match recordBytes with
  | some (b :: bs) => validateIpnsRecord lib.toIpnsLib now (b :: bs) peerId
  | _ => .error ⟨.routingError, s!"Could not resolve name: {lib.toBase58 peerId}"⟩

def resolveName (now : ℤ) (recordBytes : Option Bytes) (peerId : PeerId) : Except PyError String := do
  let entry ← resolveReply lib now recordBytes peerId
  decodeUtf8 entry.value

/-- `resolve_name` of a started peer; `routing` is whether it has a routing layer. -/
def peerResolveName (routing : Bool) (timeout : String) (now : ℤ) (fetched : Fetched)
    (peerId : PeerId) : Except PyError String :=
  if routing then
    match fetched with
    | .reply recordBytes => resolveName lib now recordBytes peerId
    | .raises e => .error e
    | .timedOut => .error ⟨.routingError, s!"IPNS resolution timed out after {timeout}s"⟩
  else .error offline

end Resolve

variable {lib : NamingLib} {now : ℤ} {recordBytes b : Bytes} {peerId : PeerId} {entry : IpnsEntry}

def Routed {α : Type*} : Except PyError α → Prop := RaisesOnly (· = .routingError)

def IsUtf8 (b : Bytes) : Prop := ∃ s, decodeUtf8 b = .ok s

theorem routed_decodeUtf8 : Routed (decodeUtf8 b) ↔ IsUtf8 b := by
  unfold IsUtf8 decodeUtf8
  split
  · exact iff_of_true (raisesOnly_ok _) ⟨_, rfl⟩
  · exact iff_of_false (fun h => nomatch raisesOnly_error.mp h) (by simp)

theorem routed_recordKey : Routed (recordKey lib.toIpnsLib entry peerId) ↔
    (entry.pubKey = [] → Routed (lib.extractPublicKey peerId)) := by
  unfold recordKey
  split_ifs with hkey
  · refine raisesOnly_bind.trans ⟨fun h _ => h.1, fun h => ⟨h hkey, ?_⟩⟩
    intro found _
    cases found with
    | none => exact raisesOnly_error.mpr rfl
    | some pubkey => exact raisesOnly_ok pubkey
  · refine ⟨fun _ h => absurd h hkey, fun _ => ?_⟩
    split
    · exact raisesOnly_error.mpr rfl
    · split_ifs
      · exact raisesOnly_error.mpr rfl
      · exact raisesOnly_ok _

/-- What the signature check of a record raises for itself: an exception of the key's `verify`, or a
`ValueError` for a validity type that is no byte. -/
def SignatureRouted (lib : NamingLib) (pubkey : lib.PubKey) (entry : IpnsEntry) : Prop :=
  if usesV2 entry then Routed (lib.verify pubkey (signaturePrefix ++ entry.data) entry.signatureV2)
  else entry.signatureV1 ≠ [] → (0 ≤ entry.validityType ∧ entry.validityType < 256) ∧
    Routed (lib.verify pubkey
      (entry.value ++ entry.validity ++ [.ofNat entry.validityType.toNat]) entry.signatureV1)

theorem routed_checkSignatureV2 {pubkey : lib.PubKey} :
    Routed (checkSignatureV2 lib.toIpnsLib pubkey entry) ↔
      Routed (lib.verify pubkey (signaturePrefix ++ entry.data) entry.signatureV2) := by
  refine raisesOnly_bind.trans ⟨fun h => h.1, fun h => ⟨h, ?_⟩⟩
  intro accepted _
  split_ifs
  · split
    · exact raisesOnly_ok _
    · split_ifs with hrouting
      · exact raisesOnly_error.mpr hrouting
      · exact raisesOnly_error.mpr rfl
  · exact raisesOnly_error.mpr rfl

theorem routed_checkSignatureV1 {pubkey : lib.PubKey} :
    Routed (checkSignatureV1 lib.toIpnsLib pubkey entry) ↔
      (0 ≤ entry.validityType ∧ entry.validityType < 256) ∧ Routed (lib.verify pubkey
        (entry.value ++ entry.validity ++ [.ofNat entry.validityType.toNat]) entry.signatureV1) := by
  have hbyte : Routed (byteOf entry.validityType) ↔
      0 ≤ entry.validityType ∧ entry.validityType < 256 := by
    unfold byteOf
    split_ifs with h
    · exact iff_of_true (raisesOnly_ok _) h
    · exact iff_of_false (fun hr => nomatch raisesOnly_error.mp hr) h
  have hverified (type : UInt8) : Routed (do
      if ← lib.verify pubkey (entry.value ++ entry.validity ++ [type]) entry.signatureV1 then .ok ()
      else .error ⟨.routingError, "IPNS V1 signature is invalid"⟩) ↔
        Routed (lib.verify pubkey (entry.value ++ entry.validity ++ [type]) entry.signatureV1) := by
    refine raisesOnly_bind.trans ⟨fun h => h.1, fun h => ⟨h, ?_⟩⟩
    intro accepted _
    split_ifs
    · exact raisesOnly_ok _
    · exact raisesOnly_error.mpr rfl
  refine raisesOnly_bind.trans ⟨?_, ?_⟩
  · rintro ⟨hb, hrest⟩
    have hrange := hbyte.mp hb
    exact ⟨hrange, (hverified _).mp (hrest _ (byteOf_ok.mpr ⟨hrange, rfl⟩))⟩
  · rintro ⟨hrange, hv⟩
    refine ⟨hbyte.mpr hrange, fun type htype => ?_⟩
    obtain ⟨-, rfl⟩ := byteOf_ok.mp htype
    exact (hverified _).mpr hv

theorem routed_checkSignature {pubkey : lib.PubKey} :
    Routed (checkSignature lib.toIpnsLib pubkey entry) ↔ SignatureRouted lib pubkey entry := by
  unfold checkSignature SignatureRouted
  split_ifs with h2 h1
  · exact routed_checkSignatureV2
  · exact routed_checkSignatureV1.trans ⟨fun h _ => h, fun h => h h1⟩
  · exact iff_of_true (raisesOnly_error.mpr rfl) fun h => absurd h h1

theorem routed_checkExpiry (hiso : ∀ s e, lib.fromisoformat s = .error e → e.type.isValueError) :
    Routed (checkExpiry lib.toIpnsLib now entry.validity) ↔ IsUtf8 entry.validity := by
  refine (raisesOnly_bind.trans ⟨fun h => h.1, fun h => ⟨h, ?_⟩⟩).trans routed_decodeUtf8
  intro validityStr _
  split
  next e he =>
    rw [if_pos (.inl (hiso _ e he))]
    exact raisesOnly_error.mpr rfl
  next validityDt _ =>
    split
    · exact raisesOnly_error.mpr rfl
    · split_ifs
      · exact raisesOnly_error.mpr rfl
      · exact raisesOnly_ok _

structure Harmless (lib : NamingLib) (now : ℤ) (recordBytes : Bytes) (peerId : PeerId)
    (entry : IpnsEntry) : Prop where
  parsed : lib.parseFromString recordBytes = .ok entry
  key : entry.pubKey = [] → Routed (lib.extractPublicKey peerId)
  signature : ∀ pubkey, recordKey lib.toIpnsLib entry peerId = .ok pubkey →
    SignatureRouted lib pubkey entry
  validity : ∀ pubkey, recordKey lib.toIpnsLib entry peerId = .ok pubkey →
    checkSignature lib.toIpnsLib pubkey entry = .ok () → IsUtf8 entry.validity
  value : recordBytes ≠ [] → ∀ pubkey, recordKey lib.toIpnsLib entry peerId = .ok pubkey →
    checkSignature lib.toIpnsLib pubkey entry = .ok () →
    checkExpiry lib.toIpnsLib now entry.validity = .ok () → IsUtf8 entry.value

theorem routed_validate (hparse : ∀ b e, lib.parseFromString b = .error e → e.type = .decodeError)
    (hiso : ∀ s e, lib.fromisoformat s = .error e → e.type.isValueError) :
    Routed (validateIpnsRecord lib.toIpnsLib now recordBytes peerId) ↔
      ∃ entry, lib.parseFromString recordBytes = .ok entry ∧
        (entry.pubKey = [] → Routed (lib.extractPublicKey peerId)) ∧
        ∀ pubkey, recordKey lib.toIpnsLib entry peerId = .ok pubkey →
          SignatureRouted lib pubkey entry ∧
            (checkSignature lib.toIpnsLib pubkey entry = .ok () → IsUtf8 entry.validity) := by
  refine raisesOnly_bind.trans ?_
  cases hp : lib.parseFromString recordBytes with
  | error e =>
    have htype := hparse recordBytes e hp
    simp [raisesOnly_error, htype]
  | ok entry =>
    have hsteps : ∀ pubkey, Routed ((checkSignature lib.toIpnsLib pubkey entry).bind fun _ =>
        (checkExpiry lib.toIpnsLib now entry.validity).bind fun _ => .ok entry) ↔
          SignatureRouted lib pubkey entry ∧
            (checkSignature lib.toIpnsLib pubkey entry = .ok () → IsUtf8 entry.validity) := by
      intro pubkey
      refine raisesOnly_bind.trans (and_congr routed_checkSignature ⟨fun h hs => ?_, fun h _ hs => ?_⟩)
      · exact (routed_checkExpiry hiso).mp (raisesOnly_bind.mp (h () hs)).1
      · exact raisesOnly_bind.mpr ⟨(routed_checkExpiry hiso).mpr (h hs), fun _ _ => raisesOnly_ok entry⟩
    have hentry : Routed ((recordKey lib.toIpnsLib entry peerId).bind fun pubkey =>
        (checkSignature lib.toIpnsLib pubkey entry).bind fun _ =>
          (checkExpiry lib.toIpnsLib now entry.validity).bind fun _ => .ok entry) ↔
        (entry.pubKey = [] → Routed (lib.extractPublicKey peerId)) ∧
          ∀ pubkey, recordKey lib.toIpnsLib entry peerId = .ok pubkey →
            SignatureRouted lib pubkey entry ∧
              (checkSignature lib.toIpnsLib pubkey entry = .ok () → IsUtf8 entry.validity) := by
      refine raisesOnly_bind.trans (and_congr routed_recordKey ?_)
      exact forall_congr' fun pubkey => imp_congr_right fun _ => hsteps pubkey
    constructor
    · rintro ⟨-, h⟩
      exact ⟨entry, rfl, hentry.mp (h entry rfl)⟩
    · rintro ⟨parsed, hparsed, h⟩
      obtain rfl := Except.ok.inj hparsed
      refine ⟨raisesOnly_ok _, fun a ha => ?_⟩
      obtain rfl := Except.ok.inj ha
      exact hentry.mpr h

theorem routed_resolveName (b : UInt8) (bs : Bytes) :
    Routed (resolveName lib now (some (b :: bs)) peerId) ↔
      Routed (validateIpnsRecord lib.toIpnsLib now (b :: bs) peerId) ∧
        ∀ entry, validateIpnsRecord lib.toIpnsLib now (b :: bs) peerId = .ok entry →
          IsUtf8 entry.value := by
  refine raisesOnly_bind.trans (and_congr_right fun _ => ?_)
  exact forall_congr' fun entry => imp_congr_right fun _ => routed_decodeUtf8

theorem resolve_routed_iff (lib : NamingLib)
    (hparse : ∀ b e, lib.parseFromString b = .error e → e.type = .decodeError)
    (hiso : ∀ s e, lib.fromisoformat s = .error e → e.type.isValueError)
    (now : ℤ) (recordBytes : Bytes) (peerId : PeerId) (routing : Bool) (timeout : String) :
    (Routed (validateIpnsRecord lib.toIpnsLib now recordBytes peerId) ∧
      Routed (resolveName lib now (some recordBytes) peerId) ∧
      Routed (peerResolveName lib routing timeout now (.reply (some recordBytes)) peerId)) ↔
    ∃ entry, Harmless lib now recordBytes peerId entry := by
  constructor
  · rintro ⟨hvalidate, hresolve, -⟩
    obtain ⟨entry, hparsed, hkey, hrest⟩ := (routed_validate hparse hiso).mp hvalidate
    refine ⟨entry, hparsed, hkey, fun k hk => (hrest k hk).1, fun k hk => (hrest k hk).2, ?_⟩
    intro hne k hk hsig hexp
    obtain ⟨b, bs, rfl⟩ := List.exists_cons_of_ne_nil hne
    exact ((routed_resolveName b bs).mp hresolve).2 entry
      (validate_ok.mpr ⟨hparsed, ⟨k, hk, hsig⟩, hexp⟩)
  · rintro ⟨entry, h⟩
    have hvalidate : Routed (validateIpnsRecord lib.toIpnsLib now recordBytes peerId) :=
      (routed_validate hparse hiso).mpr
        ⟨entry, h.parsed, h.key, fun k hk => ⟨h.signature k hk, h.validity k hk⟩⟩
    have hresolve : Routed (resolveName lib now (some recordBytes) peerId) := by
      cases recordBytes with
      | nil => exact raisesOnly_error.mpr rfl
      | cons b bs =>
        refine (routed_resolveName b bs).mpr ⟨hvalidate, fun accepted haccepted => ?_⟩
        obtain ⟨hparsed, ⟨k, hk, hsig⟩, hexp⟩ := validate_ok.mp haccepted
        obtain rfl := Except.ok.inj (h.parsed.symm.trans hparsed)
        exact h.value (List.cons_ne_nil b bs) k hk hsig hexp
    refine ⟨hvalidate, hresolve, ?_⟩
    cases routing with
    | true => exact hresolve
    | false => exact raisesOnly_error.mpr rfl

theorem namingLib_decodeError (b : Bytes) (e : PyError)
    (h : namingLib.parseFromString b = .error e) : e.type = .decodeError := by
  simp only [namingLib, sampleLib] at h
  cases hr : readEntry b with
  | some entry => simp [hr] at h
  | none =>
    rw [hr] at h
    obtain rfl := Except.error.inj h
    rfl

theorem namingLib_isoError (s : String) (e : PyError)
    (h : namingLib.fromisoformat s = .error e) : e.type.isValueError := by
  simp only [namingLib, sampleLib] at h
  split_ifs at h
  obtain rfl := Except.error.inj h
  rfl

theorem published_harmless :
    Harmless namingLib 0 (writeEntry publishedEntry) ownerId publishedEntry where
  parsed := by decide +kernel
  key h := absurd h (by decide +kernel)
  signature pubkey _ := by
    rw [SignatureRouted, if_pos (by decide +kernel)]
    exact raisesOnly_ok _
  validity _ _ _ := ⟨publishedValidity, decodeUtf8_encodeUtf8 _⟩
  value _ _ _ _ _ := ⟨publishedPath, decodeUtf8_encodeUtf8 _⟩

theorem resolve_routed_published :
    Routed (validateIpnsRecord namingLib.toIpnsLib 0 (writeEntry publishedEntry) ownerId) ∧
      Routed (resolveName namingLib 0 (some (writeEntry publishedEntry)) ownerId) ∧
      Routed (peerResolveName namingLib true "30.0" 0 (.reply (some (writeEntry publishedEntry))) ownerId) :=
  (resolve_routed_iff namingLib namingLib_decodeError namingLib_isoError 0 (writeEntry publishedEntry)
    ownerId true "30.0").mpr ⟨publishedEntry, published_harmless⟩

theorem resolve_routed_fails : ¬∀ now recordBytes peerId,
    Routed (validateIpnsRecord namingLib.toIpnsLib now recordBytes peerId) ∧
      Routed (resolveName namingLib now (some recordBytes) peerId) := by
  intro hall
  have h := (hall 0 [0xFF] ownerId).1
  have hraised : validateIpnsRecord namingLib.toIpnsLib 0 [0xFF] ownerId =
      .error ⟨.decodeError, "Error parsing message"⟩ := by decide +kernel
  exact absurd (h _ hraised) (by decide)

end IpfsLite.Naming
