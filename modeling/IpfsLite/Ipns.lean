import IpfsLite.PyValue

/-!
`create_ipns_record` and `validate_ipns_record`. An instant is a number of microseconds since the
epoch. The protobuf class, the keys, CBOR and the ISO format of instants are parameters.
-/

namespace IpfsLite

structure IpnsEntry where
  value : Bytes := []
  signatureV1 : Bytes := []
  validityType : ℤ := 0
  validity : Bytes := []
  sequence : UInt64 := 0
  ttl : UInt64 := 0
  pubKey : Bytes := []
  signatureV2 : Bytes := []
  data : Bytes := []
deriving DecidableEq

/-- A `datetime`: what its clock shows, and how far that is from UTC if it knows. -/
structure DateTime where
  clock : ℤ
  utcoffset : Option ℤ

abbrev PeerId := Bytes

structure IpnsLib extends PyLib where
  PubKey : Type
  PrivKey : Type
  parseFromString : Bytes → Except PyError IpnsEntry
  serializeToString : IpnsEntry → Bytes
  deserializePublicKey : Bytes → Except PyError PubKey
  serialize : PubKey → Bytes
  fromPubkey : PubKey → PeerId
  extractPublicKey : PeerId → Except PyError (Option PubKey)
  getPublicKey : PrivKey → PubKey
  sign : PrivKey → Bytes → Bytes
  verify : PubKey → Bytes → Bytes → Except PyError Bool
  cborLoads : Bytes → Except PyError PyValue
  cborDumps : PyValue → Bytes
  fromisoformat : String → Except PyError DateTime
  isoformat : ℤ → String

namespace Ipns

def encodeUtf8 (s : String) : Bytes := s.toUTF8.data.toList

def decodeUtf8 (b : Bytes) : Except PyError String :=
  match String.fromUTF8? ⟨b.toArray⟩ with
  | some s => .ok s
  | none => .error ⟨.unicodeDecodeError, "'utf-8' codec cannot decode bytes"⟩

theorem decodeUtf8_encodeUtf8 (s : String) : decodeUtf8 (encodeUtf8 s) = .ok s := by
  have h : (⟨s.toUTF8.data.toList.toArray⟩ : ByteArray) = s.toByteArray := by simp
  have hs : String.fromUTF8? s.toByteArray = some s := by
    simp only [String.fromUTF8?]
    rw [dif_pos s.isValidUTF8]
    rfl
  simp only [decodeUtf8, encodeUtf8, h, hs]

/-- `str.replace`, inside a match that ends after `skip` more characters. -/
def replaceFrom (old new : List Char) : (skip : ℕ) → List Char → List Char
  | _, [] => []
  | k + 1, _ :: cs => replaceFrom old new k cs
  | 0, c :: cs =>
    if old.isPrefixOf (c :: cs) then new ++ replaceFrom old new (old.length - 1) cs
    else c :: replaceFrom old new 0 cs

def splitOnce (sep : Char) (s : List Char) : List Char × List Char :=
  (s.takeWhile (· ≠ sep), (s.dropWhile (· ≠ sep)).drop 1)

def signaturePrefix : Bytes := [105, 112, 110, 115, 45, 115, 105, 103, 110, 97, 116, 117, 114, 101, 58]

def datetimeMax : ℤ := 253402300799999999

variable (lib : IpnsLib)

def formatRfc3339 (t : ℤ) : String :=
  String.ofList (replaceFrom "+00:00".toList "000Z".toList 0 (lib.isoformat t).toList)

def createdEntry (privateKey : lib.PrivKey) (valueBytes validityBytes : Bytes) (sequence : ℤ) :
    IpnsEntry :=
  let cborBytes := lib.cborDumps (.dict [(.str "Value", .bytes valueBytes),
    (.str "Validity", .bytes validityBytes), (.str "ValidityType", .int 0),
    (.str "Sequence", .int sequence)])
  { value := valueBytes
    validity := validityBytes
    validityType := 0
    signatureV1 := lib.sign privateKey (valueBytes ++ validityBytes ++ [0])
    signatureV2 := lib.sign privateKey (signaturePrefix ++ cborBytes)
    sequence := .ofNat sequence.toNat
    data := cborBytes
    pubKey := lib.serialize (lib.getPublicKey privateKey) }

def createIpnsRecord (now : ℤ) (privateKey : lib.PrivKey) (value : String) (sequence : ℤ)
    (lifetimeHours : ℤ) : Except PyError Bytes :=
  if ¬(0 ≤ sequence ∧ sequence ≤ 0xFFFFFFFFFFFFFFFF) then
    .error ⟨.valueError, "Sequence number must be a 64-bit unsigned integer (0 to 2^64-1)"⟩
  else if ¬(1 ≤ lifetimeHours ∧ lifetimeHours ≤ 876000) then
    .error ⟨.valueError, "lifetime_hours must be between 1 and 876000 (100 years)"⟩
  else
    let validityDt := now + lifetimeHours * 3600000000
    if datetimeMax < validityDt then .error ⟨.overflowError, "date value out of range"⟩
    else .ok (lib.serializeToString (createdEntry lib privateKey (encodeUtf8 value)
      (encodeUtf8 (formatRfc3339 lib validityDt)) sequence))

def recordKey (entry : IpnsEntry) (expectedPeerId : PeerId) : Except PyError lib.PubKey :=
  if entry.pubKey = [] then do
    match ← lib.extractPublicKey expectedPeerId with
    | none => .error ⟨.routingError, "IPNS record missing pubKey and Peer ID does not inline it"⟩
    | some pubkey => .ok pubkey
  else
    match lib.deserializePublicKey entry.pubKey with
    | .error e => .error ⟨.routingError, s!"Failed to deserialize IPNS pubKey: {e.message}"⟩
    | .ok pubkey =>
      if lib.fromPubkey pubkey ≠ expectedPeerId then
        .error ⟨.routingError, "IPNS record pubKey does not match the expected Peer ID"⟩
      else .ok pubkey

def usesV2 (entry : IpnsEntry) : Prop := entry.signatureV2 ≠ [] ∧ entry.data ≠ []

instance (entry : IpnsEntry) : Decidable (usesV2 entry) := inferInstanceAs (Decidable (_ ∧ _))

def mismatch (field : String) : PyError :=
  ⟨.routingError, s!"IPNS V2 signature is invalid: {field} mismatch"⟩

def matchPayload (entry : IpnsEntry) : Except PyError Unit := do
  let cborDict ← lib.cborLoads entry.data
  let value ← cborDict.get lib.toPyLib "Value"
  if ¬(value.getD .none).eqBytes entry.value then .error (mismatch "value") else
  let validity ← cborDict.get lib.toPyLib "Validity"
  if ¬(validity.getD .none).eqBytes entry.validity then .error (mismatch "validity") else
  let validityType ← cborDict.get lib.toPyLib "ValidityType"
  if ¬(validityType.getD .none).eqInt entry.validityType then .error (mismatch "validityType") else
  let sequence ← cborDict.get lib.toPyLib "Sequence"
  if ¬(sequence.getD .none).eqInt entry.sequence.toNat then .error (mismatch "sequence") else
  match ← cborDict.get lib.toPyLib "TTL" with
  | none => .ok ()
  | some ttl => if ¬ttl.eqInt entry.ttl.toNat then .error (mismatch "ttl") else .ok ()

def checkSignatureV2 (pubkey : lib.PubKey) (entry : IpnsEntry) : Except PyError Unit := do
  if ← lib.verify pubkey (signaturePrefix ++ entry.data) entry.signatureV2 then
    match matchPayload lib entry with
    | .ok () => .ok ()
    | .error e =>
      if e.type = .routingError then .error e
      else .error ⟨.routingError, s!"Failed to parse IPNS V2 CBOR data: {e.message}"⟩
  else .error ⟨.routingError, "IPNS V2 signature is invalid"⟩

def byteOf (n : ℤ) : Except PyError UInt8 :=
  if 0 ≤ n ∧ n < 256 then .ok (.ofNat n.toNat) else .error ⟨.valueError, "bytes must be in range(0, 256)"⟩

def checkSignatureV1 (pubkey : lib.PubKey) (entry : IpnsEntry) : Except PyError Unit := do
  let type ← byteOf entry.validityType
  if ← lib.verify pubkey (entry.value ++ entry.validity ++ [type]) entry.signatureV1 then .ok ()
  else .error ⟨.routingError, "IPNS V1 signature is invalid"⟩

def checkSignature (pubkey : lib.PubKey) (entry : IpnsEntry) : Except PyError Unit :=
  if usesV2 entry then checkSignatureV2 lib pubkey entry
  else if entry.signatureV1 ≠ [] then checkSignatureV1 lib pubkey entry
  else .error ⟨.routingError, "IPNS record is missing signatures"⟩

def normaliseTimestamp (s : List Char) : List Char :=
  let s := if s.getLast? = some 'Z' then s.dropLast ++ "+00:00".toList else s
  if '.' ∈ s then
    let (base, fracTz) := splitOnce '.' s
    let (frac, tz) :=
      if '+' ∈ fracTz then ((splitOnce '+' fracTz).1, '+' :: (splitOnce '+' fracTz).2)
      else if '-' ∈ fracTz then ((splitOnce '-' fracTz).1, '-' :: (splitOnce '-' fracTz).2)
      else (fracTz, "+00:00".toList)
    base ++ '.' :: frac.take 6 ++ tz
  else s

def invalidValidity : PyError := ⟨.routingError, "Invalid IPNS validity format"⟩

def checkExpiry (now : ℤ) (validity : Bytes) : Except PyError Unit := do
  let validityStr ← decodeUtf8 validity
  match lib.fromisoformat (String.ofList (normaliseTimestamp validityStr.toList)) with
  | .error e =>
    if e.type.isValueError ∨ e.type = .typeError then .error invalidValidity else .error e
  | .ok validityDt =>
    match validityDt.utcoffset with
    -- a naive datetime and `now` do not compare: a TypeError
    | none => .error invalidValidity
    | some offset =>
      if validityDt.clock - offset < now then .error ⟨.routingError, "IPNS record has expired"⟩
      else .ok ()

def validateIpnsRecord (now : ℤ) (recordBytes : Bytes) (expectedPeerId : PeerId) :
    Except PyError IpnsEntry := do
  let entry ← lib.parseFromString recordBytes
  let pubkey ← recordKey lib entry expectedPeerId
  checkSignature lib pubkey entry
  checkExpiry lib now entry.validity
  .ok entry

end Ipns

end IpfsLite
