import IpfsLite.Ipns
import IpfsLite.Lib.Leb128

namespace IpfsLite.Ipns

def signedMessage (entry : IpnsEntry) : Bytes :=
  if usesV2 entry then signaturePrefix ++ entry.data
  else entry.value ++ (entry.validity ++ [.ofNat entry.validityType.toNat])

def Authentic (lib : IpnsLib) (peer : PeerId) (entry : IpnsEntry) : Prop :=
  ∀ now recordBytes other, validateIpnsRecord lib now recordBytes peer = .ok other →
    signedMessage other = signedMessage entry →
    other.value = entry.value ∧ other.validity = entry.validity ∧ other.sequence = entry.sequence

/-- The protobuf class reads back what it has written; `admits` are the values that the field of the
enumeration can hold. -/
structure RoundTrips (lib : IpnsLib) (admits : ℤ → Prop) : Prop where
  parsed : ∀ b entry, lib.parseFromString b = .ok entry → admits entry.validityType
  serialized : ∀ entry, admits entry.validityType →
    lib.parseFromString (lib.serializeToString entry) = .ok entry

def IsTimestamp (lib : IpnsLib) (validity : Bytes) : Prop := ∃ now, checkExpiry lib now validity = .ok ()

def Unambiguous (lib : IpnsLib) (admits : ℤ → Prop) (entry : IpnsEntry) : Prop :=
  ∀ value validity type, admits type → 0 ≤ type → type < 256 →
    signaturePrefix ++ entry.data = value ++ (validity ++ [.ofNat type.toNat]) →
    ¬IsTimestamp lib validity

variable {lib : IpnsLib} {now : ℤ} {recordBytes : Bytes} {peer : PeerId} {entry : IpnsEntry}

theorem validate_ok : validateIpnsRecord lib now recordBytes peer = .ok entry ↔
    lib.parseFromString recordBytes = .ok entry ∧ (∃ pubkey, recordKey lib entry peer = .ok pubkey ∧
      checkSignature lib pubkey entry = .ok ()) ∧ checkExpiry lib now entry.validity = .ok () := by
  unfold validateIpnsRecord
  constructor
  · intro h
    obtain ⟨parsed, hparsed, h⟩ := bind_ok.mp h
    obtain ⟨pubkey, hkey, h⟩ := bind_ok.mp h
    obtain ⟨_, hsig, h⟩ := bind_ok.mp h
    obtain ⟨_, hexp, h⟩ := bind_ok.mp h
    obtain rfl := Except.ok.inj h
    exact ⟨hparsed, ⟨pubkey, hkey, hsig⟩, hexp⟩
  · rintro ⟨hparsed, ⟨pubkey, hkey, hsig⟩, hexp⟩
    apply bind_ok.mpr
    refine ⟨entry, hparsed, bind_ok.mpr ⟨pubkey, hkey, ?_⟩⟩
    exact bind_ok.mpr ⟨(), hsig, bind_ok.mpr ⟨(), hexp, rfl⟩⟩

theorem recordKey_peer (hk : ∀ peer pubkey, lib.extractPublicKey peer = .ok (some pubkey) →
    lib.fromPubkey pubkey = peer) {pubkey : lib.PubKey} (h : recordKey lib entry peer = .ok pubkey) :
    lib.fromPubkey pubkey = peer := by
  unfold recordKey at h
  split_ifs at h
  · obtain ⟨found, hfound, h⟩ := bind_ok.mp h
    cases found with
    | none => contradiction
    | some inlined =>
      obtain rfl : inlined = pubkey := Except.ok.inj h
      exact hk peer inlined hfound
  · split at h
    · contradiction
    · split_ifs at h with hne
      obtain rfl := Except.ok.inj h
      exact not_not.mp hne

theorem byteOf_ok {n : ℤ} {b : UInt8} : byteOf n = .ok b ↔ (0 ≤ n ∧ n < 256) ∧ b = .ofNat n.toNat := by
  unfold byteOf
  split_ifs with h
  · simp [h, eq_comm]
  · simp [h]

theorem checkSignatureV1_ok {pubkey : lib.PubKey} : checkSignatureV1 lib pubkey entry = .ok () ↔
    (0 ≤ entry.validityType ∧ entry.validityType < 256) ∧
      lib.verify pubkey (entry.value ++ (entry.validity ++ [.ofNat entry.validityType.toNat]))
        entry.signatureV1 = .ok true := by
  unfold checkSignatureV1
  constructor
  · intro h
    obtain ⟨b, hb, h⟩ := bind_ok.mp h
    obtain ⟨hrange, rfl⟩ := byteOf_ok.mp hb
    obtain ⟨accepted, hv, h⟩ := bind_ok.mp h
    split_ifs at h with ht
    rw [List.append_assoc] at hv
    exact ⟨hrange, by rw [hv, ht]⟩
  · rintro ⟨hrange, hv⟩
    refine bind_ok.mpr ⟨_, byteOf_ok.mpr ⟨hrange, rfl⟩, bind_ok.mpr ⟨true, ?_, rfl⟩⟩
    rw [List.append_assoc, hv]

theorem checkSignatureV2_ok {pubkey : lib.PubKey} (h : checkSignatureV2 lib pubkey entry = .ok ()) :
    lib.verify pubkey (signaturePrefix ++ entry.data) entry.signatureV2 = .ok true ∧
      matchPayload lib entry = .ok () := by
  unfold checkSignatureV2 at h
  obtain ⟨accepted, hv, h⟩ := bind_ok.mp h
  split_ifs at h with ht
  refine ⟨by rw [hv, ht], ?_⟩
  split at h
  · assumption
  · split_ifs at h

theorem checkSignature_verifies {pubkey : lib.PubKey} (h : checkSignature lib pubkey entry = .ok ()) :
    ∃ s, lib.verify pubkey (signedMessage entry) s = .ok true := by
  unfold checkSignature at h
  unfold signedMessage
  split_ifs at h ⊢ with h2 h1
  · exact ⟨entry.signatureV2, (checkSignatureV2_ok h).1⟩
  · exact ⟨entry.signatureV1, (checkSignatureV1_ok.mp h).2⟩

theorem matchPayload_ok (h : matchPayload lib entry = .ok ()) :
    ∃ payload value validity sequence, lib.cborLoads entry.data = .ok payload ∧
      payload.get lib.toPyLib "Value" = .ok value ∧ (value.getD .none).eqBytes entry.value = true ∧
      payload.get lib.toPyLib "Validity" = .ok validity ∧
      (validity.getD .none).eqBytes entry.validity = true ∧
      payload.get lib.toPyLib "Sequence" = .ok sequence ∧
      (sequence.getD .none).eqInt entry.sequence.toNat = true := by
  unfold matchPayload at h
  obtain ⟨payload, hpayload, h⟩ := bind_ok.mp h
  obtain ⟨value, hvalue, h⟩ := bind_ok.mp h
  split_ifs at h with heqv
  obtain ⟨validity, hvalidity, h⟩ := bind_ok.mp h
  split_ifs at h with heqt
  obtain ⟨type, -, h⟩ := bind_ok.mp h
  split_ifs at h
  obtain ⟨sequence, hsequence, h⟩ := bind_ok.mp h
  split_ifs at h with heqs
  exact ⟨payload, value, validity, sequence, hpayload, hvalue, heqv, hvalidity, heqt, hsequence, heqs⟩

theorem matchPayload_inj {other : IpnsEntry} (h : matchPayload lib entry = .ok ())
    (ho : matchPayload lib other = .ok ()) (hd : other.data = entry.data) :
    other.value = entry.value ∧ other.validity = entry.validity ∧ other.sequence = entry.sequence := by
  obtain ⟨payload, value, validity, sequence, hp, hv, hev, ht, het, hs, hes⟩ := matchPayload_ok h
  obtain ⟨payload', value', validity', sequence', hp', hv', hev', ht', het', hs', hes'⟩ :=
    matchPayload_ok ho
  rw [hd, hp] at hp'
  obtain rfl := Except.ok.inj hp'
  obtain rfl := Except.ok.inj (hv.symm.trans hv')
  obtain rfl := Except.ok.inj (ht.symm.trans ht')
  obtain rfl := Except.ok.inj (hs.symm.trans hs')
  refine ⟨PyValue.eqBytes_inj hev' hev, PyValue.eqBytes_inj het' het, ?_⟩
  apply UInt64.toNat_inj.mp
  exact_mod_cast PyValue.eqInt_inj hes' hes

/-- With the V2 signature stripped, whoever holds a signature over the bytes chooses the sequence. -/
theorem validate_stripped {admits : ℤ → Prop} (hp : RoundTrips lib admits) (forged : IpnsEntry)
    {pubkey : lib.PubKey} (hkey : recordKey lib entry peer = .ok pubkey)
    (hpub : forged.pubKey = entry.pubKey) (h2 : ¬usesV2 forged) (h1 : forged.signatureV1 ≠ [])
    (htype : admits forged.validityType) (hsig : checkSignatureV1 lib pubkey forged = .ok ())
    (hexp : checkExpiry lib now forged.validity = .ok ()) :
    validateIpnsRecord lib now (lib.serializeToString forged) peer = .ok forged := by
  apply validate_ok.mpr
  refine ⟨hp.serialized forged htype, ⟨pubkey, ?_, ?_⟩, hexp⟩
  · simpa only [recordKey, hpub] using hkey
  · rwa [checkSignature, if_neg h2, if_pos h1]

theorem sequence_ne (n : UInt64) : n + 1 ≠ n := by
  intro h
  have := congrArg UInt64.toBitVec h
  simp at this

theorem not_authentic_v1 {admits : ℤ → Prop} (hp : RoundTrips lib admits)
    (h : validateIpnsRecord lib now recordBytes peer = .ok entry) (h2 : ¬usesV2 entry) :
    ¬Authentic lib peer entry := by
  obtain ⟨hparsed, ⟨pubkey, hkey, hsig⟩, hexp⟩ := validate_ok.mp h
  intro hauth
  let forged : IpnsEntry := { entry with sequence := entry.sequence + 1 }
  have h1 : entry.signatureV1 ≠ [] := by
    rw [checkSignature, if_neg h2] at hsig
    split_ifs at hsig with h1
    exact h1
  rw [checkSignature, if_neg h2, if_pos h1] at hsig
  have haccepted := validate_stripped hp forged hkey rfl h2 h1
    (hp.parsed recordBytes entry hparsed) hsig hexp
  have hmessage : signedMessage forged = signedMessage entry := by
    rw [signedMessage, signedMessage, if_neg h2, if_neg (show ¬usesV2 forged from h2)]
  exact sequence_ne _ (hauth now _ forged haccepted hmessage).2.2

theorem not_authentic_ambiguous {admits : ℤ → Prop} (hp : RoundTrips lib admits)
    (h : validateIpnsRecord lib now recordBytes peer = .ok entry) (h2 : usesV2 entry)
    {value validity : Bytes} {type : ℤ} (htype : admits type) (hlow : 0 ≤ type) (hhigh : type < 256)
    (hsplit : signaturePrefix ++ entry.data = value ++ (validity ++ [.ofNat type.toNat]))
    (hvalidity : IsTimestamp lib validity) : ¬Authentic lib peer entry := by
  obtain ⟨-, ⟨pubkey, hkey, hsig⟩, -⟩ := validate_ok.mp h
  obtain ⟨now', hexp⟩ := hvalidity
  intro hauth
  let forged : IpnsEntry :=
    { entry with
      value := value
      validity := validity
      validityType := type
      signatureV1 := entry.signatureV2
      signatureV2 := []
      sequence := entry.sequence + 1 }
  rw [checkSignature, if_pos h2] at hsig
  have hv := (checkSignatureV2_ok hsig).1
  rw [hsplit] at hv
  have hstripped : ¬usesV2 forged := fun hf => hf.1 rfl
  have haccepted := validate_stripped hp forged hkey rfl hstripped h2.1 htype
    (checkSignatureV1_ok.mpr ⟨⟨hlow, hhigh⟩, hv⟩) hexp
  have hmessage : signedMessage forged = signedMessage entry := by
    rw [signedMessage, signedMessage, if_neg hstripped, if_pos h2, hsplit]
  exact sequence_ne _ (hauth now' _ forged haccepted hmessage).2.2

theorem authentic_v2 {admits : ℤ → Prop} (hp : RoundTrips lib admits)
    (h : validateIpnsRecord lib now recordBytes peer = .ok entry) (h2 : usesV2 entry)
    (hu : Unambiguous lib admits entry) : Authentic lib peer entry := by
  obtain ⟨-, ⟨pubkey, -, hsig⟩, -⟩ := validate_ok.mp h
  rw [checkSignature, if_pos h2] at hsig
  intro now' recordBytes' other ho hmessage
  obtain ⟨hparsed, ⟨pubkey', -, hsig'⟩, hexp⟩ := validate_ok.mp ho
  rw [signedMessage, signedMessage, if_pos h2] at hmessage
  rw [checkSignature] at hsig'
  split_ifs at hmessage hsig' with h2' h1'
  · exact matchPayload_inj (checkSignatureV2_ok hsig).2 (checkSignatureV2_ok hsig').2
      (List.append_cancel_left hmessage)
  · obtain ⟨⟨hlow, hhigh⟩, -⟩ := checkSignatureV1_ok.mp hsig'
    exact absurd ⟨now', hexp⟩ (hu other.value other.validity other.validityType
      (hp.parsed recordBytes' other hparsed) hlow hhigh hmessage.symm)

theorem validate_authentic_iff (lib : IpnsLib) (admits : ℤ → Prop) (hp : RoundTrips lib admits)
    (hk : ∀ peer pubkey, lib.extractPublicKey peer = .ok (some pubkey) → lib.fromPubkey pubkey = peer)
    (Signed : lib.PubKey → Bytes → Prop)
    (hs : ∀ pubkey message s, lib.verify pubkey message s = .ok true → Signed pubkey message)
    (now : ℤ) (recordBytes : Bytes) (peer : PeerId) (entry : IpnsEntry)
    (h : validateIpnsRecord lib now recordBytes peer = .ok entry) :
    (∃ pubkey, lib.fromPubkey pubkey = peer ∧ Signed pubkey (signedMessage entry)) ∧
      (Authentic lib peer entry ↔ usesV2 entry ∧ Unambiguous lib admits entry) := by
  obtain ⟨-, ⟨pubkey, hkey, hsig⟩, -⟩ := validate_ok.mp h
  obtain ⟨s, hverify⟩ := checkSignature_verifies hsig
  refine ⟨⟨pubkey, recordKey_peer hk hkey, hs pubkey _ s hverify⟩, ?_, ?_⟩
  · intro hauth
    have h2 : usesV2 entry := by
      by_contra h2
      exact not_authentic_v1 hp h h2 hauth
    refine ⟨h2, fun value validity type htype hlow hhigh hsplit hvalidity => ?_⟩
    exact not_authentic_ambiguous hp h h2 htype hlow hhigh hsplit hvalidity hauth
  · rintro ⟨h2, hu⟩
    exact authentic_v2 hp h h2 hu

/-- An Ed25519 key, and the two signatures its owner has made for one record. -/
def ownerKey : Bytes :=
  [215, 90, 152, 1, 130, 177, 10, 183, 213, 75, 254, 211, 201, 100, 7, 58, 14, 225, 114, 243, 218,
    166, 35, 37, 175, 2, 26, 104, 247, 7, 81, 26]

def ownerSignatureV2 : Bytes :=
  [118, 10, 12, 148, 144, 224, 25, 162, 119, 233, 55, 38, 216, 36, 111, 5, 205, 36, 247, 167, 32,
    230, 152, 59, 39, 100, 221, 54, 181, 231, 85, 129, 100, 20, 171, 119, 69, 158, 55, 108, 69, 5,
    131, 107, 200, 49, 63, 0, 123, 247, 213, 213, 35, 188, 189, 34, 181, 223, 200, 193, 79, 37, 198,
    7]

def ownerSignatureV1 : Bytes :=
  [236, 16, 16, 167, 133, 254, 162, 223, 163, 113, 165, 158, 116, 5, 175, 96, 107, 153, 196, 164,
    68, 199, 71, 127, 43, 153, 138, 19, 128, 76, 223, 201, 54, 93, 33, 0, 119, 14, 177, 151, 116,
    249, 152, 180, 233, 51, 105, 36, 170, 205, 225, 7, 203, 184, 183, 95, 26, 228, 35, 107, 37, 143,
    169, 4]

def publishedPath : String := "/ipfs/bafkreigks6arfsq3xxfpvqrrwonchxcnu6do76auprhhfomao6c273sixm"

def publishedValidity : String := "2100-01-01T00:00:00.000000000Z"

/-- The CBOR of the path, the validity, the validity type 0 and the sequence 7. -/
def publishedData : Bytes :=
  [164, 101, 86, 97, 108, 117, 101, 88, 65, 47, 105, 112, 102, 115, 47, 98, 97, 102, 107, 114, 101,
    105, 103, 107, 115, 54, 97, 114, 102, 115, 113, 51, 120, 120, 102, 112, 118, 113, 114, 114, 119,
    111, 110, 99, 104, 120, 99, 110, 117, 54, 100, 111, 55, 54, 97, 117, 112, 114, 104, 104, 102,
    111, 109, 97, 111, 54, 99, 50, 55, 51, 115, 105, 120, 109, 104, 86, 97, 108, 105, 100, 105, 116,
    121, 88, 30, 50, 49, 48, 48, 45, 48, 49, 45, 48, 49, 84, 48, 48, 58, 48, 48, 58, 48, 48, 46, 48,
    48, 48, 48, 48, 48, 48, 48, 48, 90, 108, 86, 97, 108, 105, 100, 105, 116, 121, 84, 121, 112,
    101, 0, 104, 83, 101, 113, 117, 101, 110, 99, 101, 7]

def publishedPayload : PyValue :=
  .dict [(.str "Value", .bytes (encodeUtf8 publishedPath)),
    (.str "Validity", .bytes (encodeUtf8 publishedValidity)), (.str "ValidityType", .int 0),
    (.str "Sequence", .int 7)]

def signatures : List (Bytes × Bytes) :=
  [(signaturePrefix ++ publishedData, ownerSignatureV2),
    (encodeUtf8 publishedPath ++ encodeUtf8 publishedValidity ++ [0], ownerSignatureV1)]

def year2100 : ℤ := 4102444800000000

def bytesField (tag : UInt8) (b : Bytes) : Bytes := tag :: Leb128.frame b

def varintField (tag : UInt8) (n : ℕ) : Bytes := tag :: Leb128.encode n

def readBytesField (tag : UInt8) : Bytes → Option (Bytes × Bytes)
  | [] => some ([], [])
  | t :: rest =>
    if t = tag then
      (Leb128.decode rest).bind fun (n, rest) =>
        if n ≤ rest.length then some (rest.take n, rest.drop n) else none
    else some ([], t :: rest)

def readVarintField (tag : UInt8) : Bytes → Option (ℕ × Bytes)
  | [] => some (0, [])
  | t :: rest => if t = tag then Leb128.decode rest else some (0, t :: rest)

theorem readBytesField_field (tag : UInt8) (b rest : Bytes) :
    readBytesField tag (bytesField tag b ++ rest) = some (b, rest) := by
  simp [readBytesField, bytesField, Leb128.frame, Leb128.decode_encode]

theorem readVarintField_field (tag : UInt8) (n : ℕ) (rest : Bytes) :
    readVarintField tag (varintField tag n ++ rest) = some (n, rest) := by
  simp [readVarintField, varintField, Leb128.decode_encode]

def writeEntry (entry : IpnsEntry) : Bytes :=
  bytesField 0x0A entry.value ++ (bytesField 0x12 entry.signatureV1 ++
    (varintField 0x18 entry.validityType.toNat ++ (bytesField 0x22 entry.validity ++
      (varintField 0x28 entry.sequence.toNat ++ (varintField 0x30 entry.ttl.toNat ++
        (bytesField 0x3A entry.pubKey ++ (bytesField 0x42 entry.signatureV2 ++
          bytesField 0x4A entry.data)))))))

/-- Reads the fields in that order. The enumeration is closed: a type other than 0 is dropped. -/
def readEntry (b : Bytes) : Option IpnsEntry := do
  let (value, b) ← readBytesField 0x0A b
  let (signatureV1, b) ← readBytesField 0x12 b
  let (_, b) ← readVarintField 0x18 b
  let (validity, b) ← readBytesField 0x22 b
  let (sequence, b) ← readVarintField 0x28 b
  let (ttl, b) ← readVarintField 0x30 b
  let (pubKey, b) ← readBytesField 0x3A b
  let (signatureV2, b) ← readBytesField 0x42 b
  let (data, b) ← readBytesField 0x4A b
  if b = [] then
    some ⟨value, signatureV1, 0, validity, .ofNat sequence, .ofNat ttl, pubKey, signatureV2, data⟩
  else none

def readKey (b : Bytes) : Except PyError Bytes :=
  if b.take 4 = [8, 1, 18, 32] then .ok (b.drop 4) else .error ⟨.valueError, "Unsupported key type"⟩

def sampleLib : IpnsLib where
  toPyLib := .builtins
  PubKey := Bytes
  PrivKey := Unit
  parseFromString b :=
    match readEntry b with
    | some entry => .ok entry
    | none => .error ⟨.decodeError, "Error parsing message"⟩
  serializeToString := writeEntry
  deserializePublicKey := readKey
  serialize key := [8, 1, 18, 32] ++ key
  fromPubkey key := [0, 36] ++ ([8, 1, 18, 32] ++ key)
  extractPublicKey peer :=
    if peer.take 2 = [0, 36] then (readKey (peer.drop 2)).map some else .ok none
  getPublicKey _ := ownerKey
  sign _ message := (signatures.lookup message).getD []
  verify key message s := .ok (key = ownerKey ∧ (message, s) ∈ signatures)
  cborLoads data :=
    if data = publishedData then .ok publishedPayload else .error ⟨.cborError, "cannot decode"⟩
  cborDumps _ := publishedData
  fromisoformat s :=
    if s = "2100-01-01T00:00:00.000000+00:00" then .ok ⟨year2100, some 0⟩
    else .error ⟨.valueError, s!"Invalid isoformat string: {s}"⟩
  isoformat _ := "2100-01-01T00:00:00.000000+00:00"

def publishedEntry : IpnsEntry :=
  createdEntry sampleLib () (encodeUtf8 publishedPath) (encodeUtf8 publishedValidity) 7

def strippedEntry : IpnsEntry := { publishedEntry with signatureV2 := [], data := [] }

def ownerId : PeerId := sampleLib.fromPubkey ownerKey

theorem published_unambiguous : Unambiguous sampleLib (· = 0) publishedEntry := by
  rintro value validity type rfl - - hsplit
  have hlast := congrArg List.getLast? hsplit
  rw [← List.append_assoc, List.getLast?_concat] at hlast
  exact absurd hlast (by decide +kernel)

theorem readEntry_validityType {b : Bytes} {entry : IpnsEntry} (h : readEntry b = some entry) :
    entry.validityType = 0 := by
  unfold readEntry at h
  -- one step for each field
  iterate 9 obtain ⟨_, -, h⟩ := Option.bind_eq_some_iff.mp h
  dsimp only at h
  split_ifs at h
  obtain rfl := Option.some.inj h
  rfl

theorem readEntry_writeEntry {entry : IpnsEntry} (h : entry.validityType = 0) :
    readEntry (writeEntry entry) = some entry := by
  have hlast := readBytesField_field 0x4A entry.data []
  rw [List.append_nil] at hlast
  simp only [readEntry, writeEntry, readBytesField_field, readVarintField_field, hlast, Option.bind_eq_bind,
    Option.bind_some, if_true, UInt64.ofNat_toNat, ← h]

theorem sampleLib_roundTrips : RoundTrips sampleLib (· = 0) where
  parsed b entry h := by
    change (match readEntry b with
      | some entry => Except.ok entry
      | none => .error _) = .ok entry at h
    cases hr : readEntry b with
    | none => simp [hr] at h
    | some read =>
      obtain rfl : read = entry := by simpa [hr] using h
      exact readEntry_validityType hr
  serialized entry h := by
    change (match readEntry (writeEntry entry) with
      | some entry => Except.ok entry
      | none => .error _) = .ok entry
    rw [readEntry_writeEntry h]

theorem sampleLib_inlined (peer : PeerId) (key : Bytes)
    (h : sampleLib.extractPublicKey peer = .ok (some key)) : sampleLib.fromPubkey key = peer := by
  change (if peer.take 2 = [0, 36] then (readKey (peer.drop 2)).map some else .ok none) = _ at h
  split_ifs at h with hpeer
  · obtain ⟨k, hk, hkey⟩ := map_ok.mp h
    obtain rfl : k = key := Option.some.inj hkey
    unfold readKey at hk
    split_ifs at hk with hrest
    obtain rfl := Except.ok.inj hk
    change [0, 36] ++ ([8, 1, 18, 32] ++ _) = peer
    rw [← hrest, List.take_append_drop, ← hpeer, List.take_append_drop]
  · cases h

def OwnerSigned (key message : Bytes) : Prop := key = ownerKey ∧ message ∈ signatures.map Prod.fst

theorem verify_signed (key message s : Bytes) (h : sampleLib.verify key message s = .ok true) :
    OwnerSigned key message := by
  obtain ⟨hkey, hmem⟩ : key = ownerKey ∧ (message, s) ∈ signatures := by
    simpa [sampleLib] using h
  exact ⟨hkey, List.mem_map_of_mem hmem⟩

example : createIpnsRecord sampleLib (year2100 - 24 * 3600000000) () publishedPath 7 24 =
    .ok (writeEntry publishedEntry) := by decide +kernel

theorem validate_authentic_published : Authentic sampleLib ownerId publishedEntry :=
  (validate_authentic_iff sampleLib (· = 0) sampleLib_roundTrips sampleLib_inlined OwnerSigned
    verify_signed 0 (writeEntry publishedEntry) ownerId publishedEntry (by decide +kernel)).2.mpr
    ⟨by decide +kernel, published_unambiguous⟩

theorem validate_authentic_fails : ¬∀ now recordBytes entry,
    validateIpnsRecord sampleLib now recordBytes ownerId = .ok entry →
    Authentic sampleLib ownerId entry := by
  intro hall
  have haccepted : validateIpnsRecord sampleLib 0 (writeEntry strippedEntry) ownerId =
      .ok strippedEntry := by decide +kernel
  have hforged : validateIpnsRecord sampleLib 0
      (writeEntry { strippedEntry with sequence := 8 }) ownerId =
        .ok { strippedEntry with sequence := 8 } := by decide +kernel
  have hsame := hall 0 _ strippedEntry haccepted 0 _ _ hforged (by decide +kernel)
  exact absurd hsame.2.2 (by decide +kernel)

end IpfsLite.Ipns
