import IpfsLite.PyDatetime
import IpfsLite.IpnsAuthenticity

/-! How long a record is accepted: what is made of the timestamps of RFC 3339. -/

namespace IpfsLite.Ipns

open PyDatetime Calendar

inductive Zone
  | utc
  | numeric (west : Bool) (hour minute : ℕ) (hour_lt : hour < 24) (minute_lt : minute < 60)

namespace Zone

def text : Zone → List Char
  | utc => ['Z']
  | numeric west hour minute _ _ =>
    (if west then '-' else '+') :: (pad 2 hour ++ ':' :: pad 2 minute)

def isoText : Zone → List Char
  | utc => "+00:00".toList
  | zone => zone.text

def offset : Zone → ℤ
  | utc => 0
  | numeric west hour minute _ _ =>
    if west then -((hour * 60 + minute) * 60000000) else (hour * 60 + minute) * 60000000

theorem isoText_sign (zone : Zone) : ∃ sign digits, zone.isoText = sign :: digits ∧
    (sign = '+' ∨ sign = '-') ∧ ∀ c ∈ digits, c.isDigit = true ∨ c = ':' := by
  have hdigits (hour minute : ℕ) : ∀ c ∈ pad 2 hour ++ ':' :: pad 2 minute, c.isDigit = true ∨ c = ':' := by
    intro c hc
    rcases List.mem_append.mp hc with hc | hc
    · exact .inl (pad_digits 2 hour c hc)
    rcases List.mem_cons.mp hc with rfl | hc
    · exact .inr rfl
    · exact .inl (pad_digits 2 minute c hc)
  cases zone with
  | utc => exact ⟨'+', pad 2 0 ++ ':' :: pad 2 0, rfl, .inl rfl, hdigits 0 0⟩
  | numeric west hour minute _ _ =>
    refine ⟨if west then '-' else '+', pad 2 hour ++ ':' :: pad 2 minute, rfl, ?_, hdigits hour minute⟩
    cases west
    · exact .inl rfl
    · exact .inr rfl

theorem readOffset_isoText (zone : Zone) : readOffset zone.isoText = .ok (some zone.offset) := by
  cases zone with
  | utc => decide +kernel
  | numeric west hour minute hh hm =>
    change readOffset ((if west then '-' else '+') :: _) = _
    rw [readOffset_text _ hh hm, offset]
    cases west <;> rfl

end Zone

/-- A timestamp of RFC 3339, with a leap second and the year 0 among them. -/
structure Rfc3339 where
  date : Date
  hour : ℕ
  minute : ℕ
  second : ℕ
  fraction : List Char
  zone : Zone
  year_mem : 0 ≤ date.year ∧ date.year ≤ 9999
  hour_lt : hour < 24
  minute_lt : minute < 60
  second_le : second ≤ 60
  digits : ∀ c ∈ fraction, c.isDigit
  short : fraction.length ≤ 9

namespace Rfc3339

def base (ts : Rfc3339) : List Char :=
  dateText ts.date.year.toNat ts.date.month ts.date.day ++ 'T' :: timeText ts.hour ts.minute ts.second

def text (ts : Rfc3339) : List Char := ts.base ++ (fractionText ts.fraction ++ ts.zone.text)

/-- The instant that the timestamp denotes, without what is less than a microsecond. -/
def instant (ts : Rfc3339) : ℤ :=
  clock ts.date ⟨ts.hour, ts.minute, ts.second, microsOf ts.fraction⟩ - ts.zone.offset

theorem digit_ne {c d : Char} (hc : c.isDigit) (hd : d.isDigit = false) : c ≠ d := by
  rintro rfl
  rw [hc] at hd
  contradiction

theorem base_noDot (ts : Rfc3339) : '.' ∉ ts.base := by
  have hpad (k n : ℕ) : '.' ∉ pad k n := fun h => digit_ne (pad_digits k n '.' h) rfl rfl
  simp [base, dateText, timeText, hpad]

theorem isoText_noDot (zone : Zone) : '.' ∉ zone.isoText := by
  obtain ⟨sign, digits, hz, hs, hd⟩ := zone.isoText_sign
  rw [hz, List.mem_cons]
  rintro (rfl | hdot)
  · exact absurd hs (by decide)
  · exact absurd (hd '.' hdot) (by decide)

theorem splitOnce_append {sep : Char} {before : List Char} (h : sep ∉ before) (after : List Char) :
    splitOnce sep (before ++ sep :: after) = (before, after) := by
  have hne : ∀ c ∈ before, decide (c ≠ sep) = true := by
    intro c hc
    apply decide_eq_true
    rintro rfl
    exact h hc
  rw [splitOnce, List.takeWhile_append_of_pos hne, List.dropWhile_append_of_pos hne]
  simp

theorem zoned_text (ts : Rfc3339) :
    (if ts.text.getLast? = some 'Z' then ts.text.dropLast ++ "+00:00".toList else ts.text) =
      ts.base ++ (fractionText ts.fraction ++ ts.zone.isoText) := by
  rw [text, ← List.append_assoc, ← List.append_assoc]
  cases hz : ts.zone with
  | utc =>
    rw [Zone.text, List.getLast?_concat, if_pos rfl, List.dropLast_concat]
    rfl
  | numeric west hour minute hh hm =>
    have hlast : (Zone.numeric west hour minute hh hm).text =
        ((if west then '-' else '+') :: (pad 2 hour ++ ':' :: pad 1 (minute / 10))) ++
          [Nat.digitChar (minute % 10)] := by
      simp [Zone.text, pad]
    have hiso : (Zone.numeric west hour minute hh hm).isoText = (Zone.numeric west hour minute hh hm).text := rfl
    rw [hiso, hlast, ← List.append_assoc, List.getLast?_concat, if_neg]
    simp

theorem normalise_text (ts : Rfc3339) : normaliseTimestamp ts.text =
    ts.base ++ (fractionText (ts.fraction.take 6) ++ ts.zone.isoText) := by
  have hsign {c : Char} (hc : isSign c) : c ∉ ts.fraction := by
    intro h
    have := isSign_of_isDigit (ts.digits c h)
    rw [hc] at this
    contradiction
  rw [normaliseTimestamp, zoned_text]
  dsimp only
  by_cases hf : ts.fraction = []
  · have hdot : '.' ∉ ts.base ++ (fractionText ts.fraction ++ ts.zone.isoText) := by
      simp [hf, fractionText, base_noDot, isoText_noDot]
    rw [if_neg hdot, hf, List.take_nil]
  · have htake : ts.fraction.take 6 ≠ [] := by simpa using hf
    rw [fractionText, if_neg hf, fractionText, if_neg htake, List.cons_append, List.cons_append,
      if_pos (by simp), splitOnce_append ts.base_noDot]
    obtain ⟨sign, offset, hz, hs, hd⟩ := ts.zone.isoText_sign
    have hplus : '+' ∉ offset := fun h => absurd (hd '+' h) (by decide)
    rw [hz]
    rcases hs with rfl | rfl
    · rw [if_pos (by simp), splitOnce_append (hsign rfl)]
      simp
    · have hno : '+' ∉ ts.fraction ++ '-' :: offset := by simp [hplus, hsign (c := '+') rfl]
      rw [if_neg hno, if_pos (by simp), splitOnce_append (hsign rfl)]
      simp

/-- The timestamps that can be read: `take 6` leaves the shorter fractions as they are. -/
def IsRead (ts : Rfc3339) : Prop :=
  (ts.fraction.length = 0 ∨ ts.fraction.length = 3 ∨ 6 ≤ ts.fraction.length) ∧
    1 ≤ ts.date.year ∧ ts.second < 60

instance (ts : Rfc3339) : Decidable ts.IsRead := inferInstanceAs (Decidable (_ ∧ _))

theorem isRead_iff (ts : Rfc3339) : ts.IsRead ↔
    Readable (ts.fraction.take 6) ∧ 1 ≤ ts.date.year ∧ ts.second < 60 := by
  rw [IsRead, Readable, List.length_take]
  constructor <;> rintro ⟨h, hrest⟩ <;> refine ⟨?_, hrest⟩ <;> omega

theorem microsOf_take (ts : Rfc3339) : microsOf (ts.fraction.take 6) = microsOf ts.fraction := by
  by_cases hl : ts.fraction.length ≤ 6
  · rw [List.take_of_length_le hl]
  have htake : (ts.fraction.take 6).length = 6 := by
    rw [List.length_take]
    omega
  have hdrop : number (ts.fraction.drop 6) < 10 ^ (ts.fraction.drop 6).length :=
    number_lt fun c hc => ts.digits c (List.mem_of_mem_drop hc)
  have hsplit := number_append (ts.fraction.take 6) (ts.fraction.drop 6)
  rw [List.take_append_drop] at hsplit
  rw [List.length_drop] at hdrop hsplit
  have hpow : 10 ^ ts.fraction.length = 10 ^ (ts.fraction.length - 6) * 1000000 := by
    rw [← Nat.pow_add 10 _ 6, Nat.sub_add_cancel (by omega)]
  rw [microsOf, microsOf, htake, hpow, Nat.mul_div_mul_right _ _ (by decide), hsplit,
    show 10 ^ 6 = 1000000 from rfl, Nat.mul_div_cancel _ (by decide), Nat.mul_add_div (by omega),
    Nat.div_eq_of_lt hdrop, Nat.add_zero]

theorem toDatetime_date (date : Date) (hy : 0 ≤ date.year) (time : Time) (offset : Option ℤ) :
    toDatetime date.year.toNat date.month date.day time offset =
      if 1 ≤ date.year ∧ date.year ≤ 9999 ∧ time.hour < 24 ∧ time.minute < 60 ∧ time.second < 60 then
        .ok ⟨clock date time, offset⟩
      else .error invalid := by
  obtain ⟨year, month, day, hm, hd⟩ := date
  obtain ⟨n, rfl⟩ := Int.eq_ofNat_of_zero_le hy
  have hvalid : (1 ≤ month ∧ month ≤ 12) ∧ 1 ≤ day ∧ day ≤ daysInMonth (isLeap n) month := ⟨hm, hd⟩
  have hone : 1 ≤ n ↔ (1 : ℤ) ≤ n := by omega
  have hmax : n ≤ 9999 ↔ (n : ℤ) ≤ 9999 := by omega
  simp only [toDatetime, Int.toNat_natCast, dif_pos hvalid, hone, hmax]

theorem day_lt (date : Date) : date.day < 100 := by
  have h := date.day_mem.2
  unfold daysInMonth at h
  split_ifs at h <;> omega

theorem fromisoText_normalised (ts : Rfc3339) : fromisoText (normaliseTimestamp ts.text) =
    if ts.IsRead then
      .ok ⟨clock ts.date ⟨ts.hour, ts.minute, ts.second, microsOf ts.fraction⟩, some ts.zone.offset⟩
    else .error invalid := by
  have hy := ts.year_mem
  have hm := ts.date.month_mem
  have hdigits : ∀ c ∈ ts.fraction.take 6, c.isDigit := fun c hc => ts.digits c (List.mem_of_mem_take hc)
  obtain ⟨sign, offset, hz, hs, -⟩ := ts.zone.isoText_sign
  have htime : ∀ c ∈ timeText ts.hour ts.minute ts.second ++ fractionText (ts.fraction.take 6),
      isSign c = false := by
    intro c hc
    rcases List.mem_append.mp hc with hc | hc
    · exact timeText_noSign _ _ _ c hc
    · exact fractionText_noSign hdigits c hc
  have hsplit := fromisoText_split (show ts.date.year.toNat < 10000 by omega)
    (show ts.date.month < 100 by omega) (day_lt ts.date) htime
    (show isSign sign by rcases hs with rfl | rfl <;> rfl) offset
  have hread := readTime_text (show ts.hour < 100 from ts.hour_lt.trans (by decide))
    (show ts.minute < 100 from ts.minute_lt.trans (by decide))
    (show ts.second < 100 from ts.second_le.trans_lt (by decide))
    (fractionText (ts.fraction.take 6))
  have hassoc : normaliseTimestamp ts.text =
      dateText ts.date.year.toNat ts.date.month ts.date.day ++ 'T' ::
        ((timeText ts.hour ts.minute ts.second ++ fractionText (ts.fraction.take 6)) ++
          sign :: offset) := by
    rw [normalise_text, hz, base]
    simp
  rw [hassoc, hsplit, hread, readFraction_text hdigits, ← hz, ts.zone.readOffset_isoText]
  by_cases hr : Readable (ts.fraction.take 6)
  · simp only [if_pos hr, Except.map, Except.bind, microsOf_take, toDatetime_date ts.date hy.1]
    simp only [isRead_iff, hr, true_and, hy.2, ts.hour_lt, ts.minute_lt]
  · have hnot : ¬ts.IsRead := fun h => hr (ts.isRead_iff.mp h).1
    rw [if_neg hr, if_neg hnot]
    rfl

end Rfc3339

def recordPayload (value validity : Bytes) (sequence : ℤ) : PyValue :=
  .dict [(.str "Value", .bytes value), (.str "Validity", .bytes validity),
    (.str "ValidityType", .int 0), (.str "Sequence", .int sequence)]

variable {lib : IpnsLib} {now : ℤ} {recordBytes : Bytes} {peer : PeerId} {entry : IpnsEntry}

def expired : PyError := ⟨.routingError, "IPNS record has expired"⟩

theorem checkExpiry_text (hlib : lib.fromisoformat = PyDatetime.fromisoformat) (ts : Rfc3339) :
    checkExpiry lib now (encodeUtf8 (String.ofList ts.text)) =
      if ts.IsRead then (if ts.instant < now then .error expired else .ok ())
      else .error invalidValidity := by
  rw [checkExpiry, decodeUtf8_encodeUtf8]
  simp only [Except.bind, bind, String.toList_ofList, hlib, PyDatetime.fromisoformat,
    ts.fromisoText_normalised]
  by_cases hr : ts.IsRead
  · simp only [if_pos hr]
    rfl
  · simp only [if_neg hr]
    rfl

def CorrectlySigned (lib : IpnsLib) (recordBytes : Bytes) (peer : PeerId) (entry : IpnsEntry) : Prop :=
  lib.parseFromString recordBytes = .ok entry ∧
    ∃ pubkey, recordKey lib entry peer = .ok pubkey ∧ checkSignature lib pubkey entry = .ok ()

theorem validate_signed (h : CorrectlySigned lib recordBytes peer entry) :
    validateIpnsRecord lib now recordBytes peer =
      (checkExpiry lib now entry.validity).map fun _ => entry := by
  obtain ⟨hparsed, pubkey, hkey, hsig⟩ := h
  rw [validateIpnsRecord, hparsed]
  simp only [Except.bind, bind, hkey, hsig]
  cases checkExpiry lib now entry.validity <;> rfl

theorem validate_expiry_iff (lib : IpnsLib) (hlib : lib.fromisoformat = PyDatetime.fromisoformat)
    (recordBytes : Bytes) (peer : PeerId) (entry : IpnsEntry)
    (hsigned : CorrectlySigned lib recordBytes peer entry) (ts : Rfc3339)
    (hvalidity : entry.validity = encodeUtf8 (String.ofList ts.text)) (now : ℤ) :
    ((∃ accepted, validateIpnsRecord lib now recordBytes peer = .ok accepted) ↔ now ≤ ts.instant) ↔
      ts.IsRead ∨ ts.instant < now := by
  rw [validate_signed hsigned, hvalidity, checkExpiry_text hlib]
  by_cases hr : ts.IsRead
  · by_cases hnow : ts.instant < now
    · simp [hr, hnow, Except.map]
    · simp [hr, hnow, Except.map, not_lt.mp hnow]
  · by_cases hnow : ts.instant < now
    · simp [hr, hnow, Except.map]
    · simp [hr, hnow, Except.map, not_lt.mp hnow]

structure ReadsBack (lib : IpnsLib) : Prop where
  parsed : ∀ entry, entry.validityType = 0 →
    lib.parseFromString (lib.serializeToString entry) = .ok entry
  key : ∀ pubkey, lib.serialize pubkey ≠ [] ∧
    lib.deserializePublicKey (lib.serialize pubkey) = .ok pubkey
  verified : ∀ key message, lib.sign key message ≠ [] ∧
    lib.verify (lib.getPublicKey key) message (lib.sign key message) = .ok true
  loaded : ∀ value validity sequence, 0 ≤ sequence → sequence < 2 ^ 64 →
    lib.cborDumps (recordPayload value validity sequence) ≠ [] ∧
    lib.cborLoads (lib.cborDumps (recordPayload value validity sequence)) =
      .ok (recordPayload value validity sequence)

theorem replaceFrom_end {sep : Char} {rest new pre : List Char} (h : sep ∉ pre) :
    replaceFrom (sep :: rest) new 0 (pre ++ sep :: rest) = pre ++ new := by
  have hskip (k : ℕ) (cs : List Char) (hk : cs.length ≤ k) :
      replaceFrom (sep :: rest) new k cs = [] := by
    induction cs generalizing k with
    | nil => cases k <;> rfl
    | cons c cs ih =>
      cases k with
      | zero => simp at hk
      | succ k => exact ih k (by simpa using hk)
  induction pre with
  | nil =>
    have hpre : (sep :: rest).isPrefixOf (sep :: rest) = true := by simp
    rw [List.nil_append, replaceFrom, if_pos hpre, hskip _ _ (by simp)]
    simp
  | cons c pre ih =>
    have hne : sep ≠ c := fun he => h (by simp [he])
    have hpre : (sep :: rest).isPrefixOf (c :: (pre ++ sep :: rest)) = false := by
      simp [List.isPrefixOf, hne]
    rw [List.cons_append, replaceFrom, if_neg (by simp [hpre]), ih fun hm => h (by simp [hm])]
    rfl

theorem toNat_sequence {sequence : ℤ} (hlow : 0 ≤ sequence) (hhigh : sequence < 2 ^ 64) :
    ((UInt64.ofNat sequence.toNat).toNat : ℤ) = sequence := by
  rw [UInt64.toNat_ofNat']
  omega

theorem matchPayload_recordPayload {sequence : ℤ} (hlow : 0 ≤ sequence)
    (hhigh : sequence < 2 ^ 64) (hvt : entry.validityType = 0)
    (hseq : entry.sequence = .ofNat sequence.toNat)
    (hdata : lib.cborLoads entry.data = .ok (recordPayload entry.value entry.validity sequence)) :
    matchPayload lib entry = .ok () := by
  have hn : (entry.sequence.toNat : ℤ) = sequence := by
    rw [hseq]
    exact toNat_sequence hlow hhigh
  rw [matchPayload, hdata]
  simp [Except.bind, bind, recordPayload, PyValue.get, PyValue.lookup, PyValue.isStr,
    PyValue.eqBytes, PyValue.eqInt, PyValue.number?, hvt, ← hn]

theorem createdEntry_signed (hlib : ReadsBack lib) (key : lib.PrivKey) (value validity : Bytes)
    {sequence : ℤ} (hlow : 0 ≤ sequence) (hhigh : sequence < 2 ^ 64) :
    CorrectlySigned lib (lib.serializeToString (createdEntry lib key value validity sequence))
      (lib.fromPubkey (lib.getPublicKey key)) (createdEntry lib key value validity sequence) := by
  obtain ⟨hne, hloaded⟩ := hlib.loaded value validity sequence hlow hhigh
  obtain ⟨hkne, hkey⟩ := hlib.key (lib.getPublicKey key)
  obtain ⟨hsne, hverified⟩ := hlib.verified key
    (signaturePrefix ++ lib.cborDumps (recordPayload value validity sequence))
  refine ⟨hlib.parsed _ rfl, lib.getPublicKey key, ?_, ?_⟩
  · have hpub : (createdEntry lib key value validity sequence).pubKey =
        lib.serialize (lib.getPublicKey key) := rfl
    rw [recordKey, hpub, if_neg hkne, hkey]
    simp
  · have h2 : usesV2 (createdEntry lib key value validity sequence) := ⟨hsne, hne⟩
    have hv : lib.verify (lib.getPublicKey key)
        (signaturePrefix ++ (createdEntry lib key value validity sequence).data)
        (createdEntry lib key value validity sequence).signatureV2 = .ok true := hverified
    have hmatch : matchPayload lib (createdEntry lib key value validity sequence) = .ok () :=
      matchPayload_recordPayload hlow hhigh rfl rfl hloaded
    rw [checkSignature, if_pos h2, checkSignatureV2, hv]
    simp only [Except.bind, bind, if_true, hmatch]

def InRange (t : ℤ) : Prop := datetimeMin ≤ t ∧ t ≤ datetimeMax

theorem dateOf_year_mem {t : ℤ} (h : InRange t) :
    1 ≤ (dateOf t).year ∧ (dateOf t).year ≤ 9999 := by
  obtain ⟨hmin, hmax⟩ := h
  rw [datetimeMin] at hmin
  rw [datetimeMax] at hmax
  apply yearOf_mem <;> rw [epoch] <;> omega

theorem clock_dateOf (t : ℤ) : clock (dateOf t) (timeOf t) = t := by
  rw [clock, dateOf, Date.ordinal_ofOrdinal, Time.micros, timeOf]
  dsimp only
  omega

def writtenStamp (t : ℤ) (h : InRange t) : Rfc3339 where
  date := dateOf t
  hour := (timeOf t).hour
  minute := (timeOf t).minute
  second := (timeOf t).second
  fraction := pad 6 (timeOf t).microsecond ++ "000".toList
  zone := .utc
  year_mem := by
    have := dateOf_year_mem h
    omega
  hour_lt := by
    simp only [timeOf]
    omega
  minute_lt := Nat.mod_lt _ (by decide)
  second_le := (Nat.mod_lt _ (by decide)).le
  digits := by
    intro c hc
    rcases List.mem_append.mp hc with hc | hc
    · exact pad_digits 6 _ c hc
    · have hzero : c = '0' := by simpa using hc
      rw [hzero]
      rfl
  short := by simp [length_pad]

theorem writtenStamp_isRead {t : ℤ} (h : InRange t) : (writtenStamp t h).IsRead := by
  refine ⟨.inr (.inr ?_), (dateOf_year_mem h).1, Nat.mod_lt _ (by decide)⟩
  simp [writtenStamp, length_pad]

theorem writtenStamp_instant {t : ℤ} (h : InRange t) : (writtenStamp t h).instant = t := by
  have hlt : (timeOf t).microsecond < 10 ^ 6 := Nat.mod_lt _ (by decide)
  have hmicros : microsOf (writtenStamp t h).fraction = (timeOf t).microsecond := by
    rw [← (writtenStamp t h).microsOf_take, writtenStamp, List.take_left' (length_pad 6 _), microsOf,
      number_pad hlt, length_pad, show 10 ^ 6 = 1000000 from rfl, Nat.mul_div_cancel _ (by decide)]
  rw [Rfc3339.instant, hmicros]
  exact (Int.sub_zero _).trans (clock_dateOf t)

theorem formatRfc3339_eq {t : ℤ} (h : InRange t) (hiso : lib.isoformat t = PyDatetime.isoformat t) :
    formatRfc3339 lib t = String.ofList (writtenStamp t h).text := by
  have hpad (k n : ℕ) : '+' ∉ pad k n := fun hm => absurd (pad_digits k n '+' hm) (by decide)
  have hplus : '+' ∉ (writtenStamp t h).base ++ '.' :: pad 6 (timeOf t).microsecond := by
    simp [Rfc3339.base, dateText, timeText, hpad]
  have htext : isoText t =
      ((writtenStamp t h).base ++ '.' :: pad 6 (timeOf t).microsecond) ++ "+00:00".toList := by
    simp [isoText, Rfc3339.base, writtenStamp]
  have hfraction : (writtenStamp t h).fraction ≠ [] := by simp [writtenStamp]
  have hreplaced : replaceFrom "+00:00".toList "000Z".toList 0
      (((writtenStamp t h).base ++ '.' :: pad 6 (timeOf t).microsecond) ++ "+00:00".toList) =
        ((writtenStamp t h).base ++ '.' :: pad 6 (timeOf t).microsecond) ++ "000Z".toList :=
    replaceFrom_end hplus
  rw [formatRfc3339, hiso, PyDatetime.isoformat, String.toList_ofList (l := isoText t), htext,
    hreplaced, Rfc3339.text, fractionText, if_neg hfraction]
  simp [writtenStamp, Zone.text]

theorem normalise_written {t : ℤ} (h : InRange t) : normaliseTimestamp (writtenStamp t h).text = isoText t := by
  have hne : pad 6 (timeOf t).microsecond ≠ [] := by simp [pad]
  have htake : (writtenStamp t h).fraction.take 6 = pad 6 (timeOf t).microsecond :=
    List.take_left' (length_pad 6 _)
  rw [Rfc3339.normalise_text, htake, fractionText, if_neg hne, isoText, Rfc3339.base]
  simp [writtenStamp, Zone.isoText]

theorem fromisoformat_isoformat {t : ℤ} (h : InRange t) :
    PyDatetime.fromisoformat (PyDatetime.isoformat t) = .ok ⟨t, some 0⟩ := by
  have hread := (writtenStamp t h).fromisoText_normalised
  have hclock : clock (dateOf t) ⟨(timeOf t).hour, (timeOf t).minute, (timeOf t).second,
      microsOf (writtenStamp t h).fraction⟩ - 0 = t := writtenStamp_instant h
  rw [if_pos (writtenStamp_isRead h), normalise_written] at hread
  rw [Int.sub_zero] at hclock
  rw [PyDatetime.fromisoformat, PyDatetime.isoformat, String.toList_ofList, hread]
  exact congrArg (fun c => Except.ok (DateTime.mk c (some 0))) hclock

theorem checkExpiry_written {t : ℤ} (h : InRange t) (hiso : lib.isoformat t = PyDatetime.isoformat t)
    (hfromiso : lib.fromisoformat (lib.isoformat t) = .ok ⟨t, some 0⟩) :
    checkExpiry lib now (encodeUtf8 (formatRfc3339 lib t)) = if t < now then .error expired else .ok () := by
  rw [hiso, PyDatetime.isoformat] at hfromiso
  rw [checkExpiry, decodeUtf8_encodeUtf8, formatRfc3339_eq h hiso]
  simp only [Except.bind, bind, String.toList_ofList, normalise_written, hfromiso, Int.sub_zero]
  rfl

theorem create_validate (lib : IpnsLib) (hlib : ReadsBack lib)
    (hiso : ∀ t, InRange t → lib.isoformat t = PyDatetime.isoformat t)
    (hfromiso : ∀ t, InRange t → lib.fromisoformat (lib.isoformat t) = .ok ⟨t, some 0⟩)
    (key : lib.PrivKey) (value : String) (sequence : ℤ) (hlow : 0 ≤ sequence)
    (hhigh : sequence ≤ 2 ^ 64 - 1) (lifetimeHours : ℤ) (hmin : 1 ≤ lifetimeHours)
    (hmax : lifetimeHours ≤ 876000) (t : ℤ)
    (hexpires : InRange (t + lifetimeHours * 3600000000)) :
    ∃ record entry, createIpnsRecord lib t key value sequence lifetimeHours = .ok record ∧
      entry.value = encodeUtf8 value ∧ (entry.sequence.toNat : ℤ) = sequence ∧
      ∀ now, (now ≤ t + lifetimeHours * 3600000000 →
          validateIpnsRecord lib now record (lib.fromPubkey (lib.getPublicKey key)) = .ok entry) ∧
        (t + lifetimeHours * 3600000000 < now →
          validateIpnsRecord lib now record (lib.fromPubkey (lib.getPublicKey key)) =
            .error ⟨.routingError, "IPNS record has expired"⟩) := by
  have hlt : sequence < 2 ^ 64 := by omega
  let created := createdEntry lib key (encodeUtf8 value)
    (encodeUtf8 (formatRfc3339 lib (t + lifetimeHours * 3600000000))) sequence
  have hsigned := createdEntry_signed hlib key (encodeUtf8 value)
    (encodeUtf8 (formatRfc3339 lib (t + lifetimeHours * 3600000000))) hlow hlt
  have hcheck (now : ℤ) : checkExpiry lib now (encodeUtf8 (formatRfc3339 lib (t + lifetimeHours * 3600000000))) = _ :=
    checkExpiry_written hexpires (hiso _ hexpires) (hfromiso _ hexpires)
  refine ⟨lib.serializeToString created, created, ?_, rfl, ?_, fun now => ⟨fun hnow => ?_, fun hnow => ?_⟩⟩
  · rw [createIpnsRecord, if_neg (by omega), if_neg (by omega)]
    exact if_neg (not_lt.mpr hexpires.2)
  · exact toNat_sequence hlow hlt
  · rw [validate_signed hsigned]
    change (checkExpiry lib now (encodeUtf8 _)).map _ = _
    rw [hcheck, if_neg (not_lt.mpr hnow)]
    rfl
  · rw [validate_signed hsigned]
    change (checkExpiry lib now (encodeUtf8 _)).map _ = _
    rw [hcheck, if_pos hnow]
    rfl

/-- The head of a CBOR item; past 255 in a form of its own. -/
def cborHead (major n : ℕ) : Bytes :=
  if n < 24 then [.ofNat (major * 32 + n)]
  else if n < 256 then [.ofNat (major * 32 + 24), .ofNat n]
  else .ofNat (major * 32 + 28) :: Leb128.encode n

def readHead (major : ℕ) : Bytes → Option (ℕ × Bytes)
  | [] => none
  | c :: rest =>
    if c.toNat < major * 32 then none
    else if c.toNat < major * 32 + 24 then some (c.toNat - major * 32, rest)
    else if c.toNat = major * 32 + 24 then rest.head?.map fun n => (n.toNat, rest.drop 1)
    else if c.toNat = major * 32 + 28 then Leb128.decode rest
    else none

theorem readHead_cborHead {major : ℕ} (hm : major < 7) (n : ℕ) (rest : Bytes) :
    readHead major (cborHead major n ++ rest) = some (n, rest) := by
  have hbyte {k : ℕ} (hk : k < 256) : (UInt8.ofNat k).toNat = k := UInt8.toNat_ofNat_of_lt hk
  unfold cborHead
  split_ifs with h24 h256
  · rw [List.cons_append, readHead, hbyte (by omega), if_neg (by omega), if_pos (by omega)]
    simp
  · rw [List.cons_append, readHead, hbyte (by omega), if_neg (by omega), if_neg (by omega),
      if_pos rfl]
    simp [Nat.mod_eq_of_lt h256]
  · rw [List.cons_append, readHead, hbyte (by omega), if_neg (by omega), if_neg (by omega),
      if_neg (by omega), if_pos rfl]
    exact Leb128.decode_encode n rest

def cborBytes (b : Bytes) : Bytes := cborHead 2 b.length ++ b

def readCborBytes (b : Bytes) : Option (Bytes × Bytes) :=
  (readHead 2 b).bind fun (n, rest) =>
    if n ≤ rest.length then some (rest.take n, rest.drop n) else none

def cborKey (key : String) : Bytes := cborHead 3 key.utf8ByteSize ++ encodeUtf8 key

def dropPrefix (start b : Bytes) : Option Bytes :=
  if start.isPrefixOf b then some (b.drop start.length) else none

def recordData (value validity : Bytes) (sequence : ℕ) : Bytes :=
  (0xA4 :: cborKey "Value") ++ (cborBytes value ++ (cborKey "Validity" ++ (cborBytes validity ++
    ((cborKey "ValidityType" ++ 0 :: cborKey "Sequence") ++ cborHead 0 sequence))))

def readRecordData (b : Bytes) : Option PyValue := do
  let b ← dropPrefix (0xA4 :: cborKey "Value") b
  let (value, b) ← readCborBytes b
  let b ← dropPrefix (cborKey "Validity") b
  let (validity, b) ← readCborBytes b
  let b ← dropPrefix (cborKey "ValidityType" ++ 0 :: cborKey "Sequence") b
  let (sequence, b) ← readHead 0 b
  if b = [] then some (recordPayload value validity sequence) else none

def loadRecordData (b : Bytes) : Except PyError PyValue :=
  match readRecordData b with
  | some payload => .ok payload
  | none => .error ⟨.cborError, "cannot decode"⟩

theorem readCborBytes_append (b rest : Bytes) :
    readCborBytes (cborBytes b ++ rest) = some (b, rest) := by
  rw [readCborBytes, cborBytes, List.append_assoc, readHead_cborHead (by decide)]
  simp

theorem dropPrefix_append (start rest : Bytes) : dropPrefix start (start ++ rest) = some rest := by
  have h : start.isPrefixOf (start ++ rest) = true := by simp
  rw [dropPrefix, if_pos h, List.drop_left]

theorem loadRecordData_recordData (value validity : Bytes) (sequence : ℕ) :
    loadRecordData (recordData value validity sequence) =
      .ok (recordPayload value validity sequence) := by
  have hlast := readHead_cborHead (show 0 < 7 by decide) sequence []
  rw [List.append_nil] at hlast
  simp only [loadRecordData, readRecordData, recordData, dropPrefix_append, readCborBytes_append, hlast,
    Option.bind_eq_bind, Option.bind_some, if_true]

/-- A second record of the same owner, whose fraction of a second has one digit. -/
def halfSignatureV2 : Bytes :=
  [111, 102, 60, 161, 76, 185, 173, 219, 59, 135, 66, 23, 202, 235, 60, 77, 144, 41, 5, 67, 3, 42,
    143, 9, 164, 230, 36, 23, 156, 51, 179, 92, 26, 244, 179, 47, 39, 133, 249, 48, 228, 167, 226,
    109, 235, 63, 20, 207, 73, 7, 78, 181, 15, 28, 170, 103, 61, 237, 7, 196, 222, 111, 171, 0]

def halfSignatureV1 : Bytes :=
  [146, 104, 92, 173, 173, 149, 230, 29, 158, 163, 58, 163, 72, 248, 167, 220, 192, 210, 225, 172,
    40, 164, 245, 92, 246, 22, 112, 186, 222, 239, 242, 65, 64, 62, 165, 155, 12, 248, 109, 167, 79,
    238, 84, 128, 12, 148, 153, 62, 64, 11, 68, 54, 5, 40, 243, 52, 66, 210, 41, 134, 162, 87, 212,
    0]

def halfValidity : String := "2100-01-01T00:00:00.5Z"

def ownerSign (message : Bytes) : Bytes :=
  if message = signaturePrefix ++ publishedData then ownerSignatureV2
  else if message = encodeUtf8 publishedPath ++ encodeUtf8 publishedValidity ++ [0] then
    ownerSignatureV1
  else if message =
      signaturePrefix ++ recordData (encodeUtf8 publishedPath) (encodeUtf8 halfValidity) 8 then
    halfSignatureV2
  else if message = encodeUtf8 publishedPath ++ encodeUtf8 halfValidity ++ [0] then halfSignatureV1
  else [0]

def ownerVerify (key message s : Bytes) : Bool := key = ownerKey ∧ s = ownerSign message

def recordLib : IpnsLib :=
  { sampleLib with
    sign := fun _ message => ownerSign message
    verify := fun key message s => .ok (ownerVerify key message s)
    cborLoads := loadRecordData
    cborDumps := fun v =>
      match v with
      | .dict [(_, .bytes value), (_, .bytes validity), _, (_, .int sequence)] =>
        recordData value validity sequence.toNat
      | _ => [0xF6]
    fromisoformat := PyDatetime.fromisoformat
    isoformat := PyDatetime.isoformat }

theorem ownerSign_ne (message : Bytes) : ownerSign message ≠ [] := by
  unfold ownerSign
  split_ifs <;> exact List.cons_ne_nil _ _

theorem recordLib_readsBack : ReadsBack recordLib where
  parsed entry h := sampleLib_roundTrips.serialized entry h
  key pubkey := ⟨List.cons_ne_nil _ _, rfl⟩
  verified key message := by
    refine ⟨ownerSign_ne message, ?_⟩
    change Except.ok (ownerVerify ownerKey message (ownerSign message)) = _
    simp [ownerVerify]
  loaded value validity sequence hlow _ := by
    have hdumps : recordLib.cborDumps (recordPayload value validity sequence) =
        recordData value validity sequence.toNat := rfl
    refine ⟨by simp [hdumps, recordData], ?_⟩
    have hloads : recordLib.cborLoads (recordData value validity sequence.toNat) =
        .ok (recordPayload value validity sequence.toNat) := loadRecordData_recordData _ _ _
    rw [hdumps, hloads, Int.toNat_of_nonneg hlow]

theorem create_validate_published : ∃ record entry,
    createIpnsRecord recordLib (year2100 - 24 * 3600000000) () publishedPath 7 24 = .ok record ∧
      entry.value = encodeUtf8 publishedPath ∧ (entry.sequence.toNat : ℤ) = 7 ∧
      ∀ now, (now ≤ year2100 - 24 * 3600000000 + 24 * 3600000000 →
          validateIpnsRecord recordLib now record (recordLib.fromPubkey ownerKey) = .ok entry) ∧
        (year2100 - 24 * 3600000000 + 24 * 3600000000 < now →
          validateIpnsRecord recordLib now record (recordLib.fromPubkey ownerKey) =
            .error ⟨.routingError, "IPNS record has expired"⟩) :=
  create_validate recordLib recordLib_readsBack (fun _ _ => rfl) (fun _ h => fromisoformat_isoformat h) ()
    publishedPath 7 (by decide) (by decide) 24 (by decide) (by decide) (year2100 - 24 * 3600000000) ⟨by decide, by decide⟩

def stamp2100 (fraction : List Char) (digits : ∀ c ∈ fraction, c.isDigit)
    (short : fraction.length ≤ 9) : Rfc3339 where
  date := ⟨2100, 1, 1, by decide, by decide⟩
  hour := 0
  minute := 0
  second := 0
  fraction := fraction
  zone := .utc
  year_mem := by decide
  hour_lt := by decide
  minute_lt := by decide
  second_le := by decide
  digits := digits
  short := short

def recordOf (validity : String) (sequence : ℤ) : IpnsEntry :=
  createdEntry recordLib () (encodeUtf8 publishedPath) (encodeUtf8 validity) sequence

theorem validate_expiry_published : (∃ accepted, validateIpnsRecord recordLib year2100
    (writeEntry (recordOf publishedValidity 7)) ownerId = .ok accepted) ↔
      year2100 ≤ (stamp2100 "000000000".toList (List.all_eq_true.mp (by decide)) (by decide)).instant :=
  (validate_expiry_iff recordLib rfl (writeEntry (recordOf publishedValidity 7)) ownerId
    (recordOf publishedValidity 7) (createdEntry_signed recordLib_readsBack () _ _ (by decide) (by decide))
    (stamp2100 "000000000".toList (List.all_eq_true.mp (by decide)) (by decide)) (by decide +kernel) year2100).mpr
    (.inl (by decide))

theorem validate_expiry_fails : ¬∀ recordBytes entry (ts : Rfc3339) now,
    CorrectlySigned recordLib recordBytes ownerId entry →
    entry.validity = encodeUtf8 (String.ofList ts.text) →
    ((∃ accepted, validateIpnsRecord recordLib now recordBytes ownerId = .ok accepted) ↔
      now ≤ ts.instant) := by
  intro hall
  have hsigned : CorrectlySigned recordLib (writeEntry (recordOf halfValidity 8)) ownerId
      (recordOf halfValidity 8) :=
    createdEntry_signed recordLib_readsBack () _ _ (by decide) (by decide)
  obtain ⟨accepted, h⟩ := (hall _ _ (stamp2100 ['5'] (List.all_eq_true.mp (by decide)) (by decide)) 0 hsigned
    (by decide +kernel)).mpr (by decide)
  have hrun := (validate_signed hsigned).symm.trans h
  have hinvalid : checkExpiry recordLib 0 (recordOf halfValidity 8).validity =
      .error invalidValidity := by decide +kernel
  rw [hinvalid, Except.map] at hrun
  cases hrun

end IpfsLite.Ipns
