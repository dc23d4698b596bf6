import IpfsLite.Ipns
import IpfsLite.PyInt
import IpfsLite.Lib.Calendar

/-!
`isoformat` of an instant in UTC, to the microsecond, and `datetime.fromisoformat` as in Python 3.10:
`YYYY-MM-DD[*HH[:MM[:SS[.fff[fff]]]][+HH:MM[:SS[.ffffff]]]]`.
-/

namespace IpfsLite.PyDatetime

open Calendar

def pad : ℕ → ℕ → List Char
  | 0, _ => []
  | k + 1, n => pad k (n / 10) ++ [Nat.digitChar (n % 10)]

def number (cs : List Char) : ℕ := Nat.ofDigitChars 10 cs 0

def dateText (year month day : ℕ) : List Char :=
  pad 4 year ++ '-' :: (pad 2 month ++ '-' :: pad 2 day)

def timeText (hour minute second : ℕ) : List Char :=
  pad 2 hour ++ ':' :: (pad 2 minute ++ ':' :: pad 2 second)

def epoch : ℤ := 719163

def datetimeMin : ℤ := -62135596800000000

structure Time where
  hour : ℕ := 0
  minute : ℕ := 0
  second : ℕ := 0
  microsecond : ℕ := 0

def Time.micros (t : Time) : ℤ :=
  ((t.hour * 60 + t.minute) * 60 + t.second) * 1000000 + t.microsecond

def clock (date : Date) (time : Time) : ℤ := (date.ordinal - epoch) * 86400000000 + time.micros

def dateOf (t : ℤ) : Date := .ofOrdinal (t / 86400000000 + epoch)

def timeOf (t : ℤ) : Time :=
  let rest := (t % 86400000000).toNat
  ⟨rest / 3600000000, rest / 60000000 % 60, rest / 1000000 % 60, rest % 1000000⟩

def isoText (t : ℤ) : List Char :=
  dateText (dateOf t).year.toNat (dateOf t).month (dateOf t).day ++
    'T' :: (timeText (timeOf t).hour (timeOf t).minute (timeOf t).second ++
      '.' :: (pad 6 (timeOf t).microsecond ++ "+00:00".toList))

def isoformat (t : ℤ) : String := String.ofList (isoText t)

def invalid : PyError := ⟨.valueError, "Invalid isoformat string"⟩

def readNumber (k : ℕ) (cs : List Char) : Except PyError (ℕ × List Char) :=
  if k ≤ cs.length ∧ (cs.take k).all Char.isDigit then .ok (number (cs.take k), cs.drop k)
  else .error invalid

def expect (c : Char) : List Char → Except PyError (List Char)
  | [] => .error invalid
  | d :: cs => if d = c then .ok cs else .error invalid

def readDate (cs : List Char) : Except PyError ((ℕ × ℕ × ℕ) × List Char) := do
  let (year, cs) ← readNumber 4 cs
  let cs ← expect '-' cs
  let (month, cs) ← readNumber 2 cs
  let cs ← expect '-' cs
  let (day, cs) ← readNumber 2 cs
  .ok ((year, month, day), cs)

def readFraction (cs : List Char) : Except PyError ℕ :=
  if cs = [] then .ok 0
  else do
    let cs ← expect '.' cs
    if cs.length = 3 then do
      let (millisecond, _) ← readNumber 3 cs
      .ok (millisecond * 1000)
    else if cs.length = 6 then do
      let (microsecond, _) ← readNumber 6 cs
      .ok microsecond
    else .error invalid

def readSecond (hour minute : ℕ) (cs : List Char) : Except PyError Time :=
  if cs = [] then .ok { hour, minute }
  else do
    let cs ← expect ':' cs
    let (second, cs) ← readNumber 2 cs
    let microsecond ← readFraction cs
    .ok { hour, minute, second, microsecond }

def readTime (cs : List Char) : Except PyError Time := do
  let (hour, cs) ← readNumber 2 cs
  if cs = [] then .ok { hour }
  else do
    let cs ← expect ':' cs
    let (minute, cs) ← readNumber 2 cs
    readSecond hour minute cs

def isSign (c : Char) : Bool := c = '+' || c = '-'

/-- The part after the time: nothing, or an offset of less than a day. -/
def readOffset : List Char → Except PyError (Option ℤ)
  | [] => .ok none
  | sign :: cs =>
    if cs.length ∈ [5, 8, 15] then do
      let time ← readTime cs
      let offset := if sign = '-' then -time.micros else time.micros
      if offset.natAbs < 86400000000 then .ok (some offset) else .error invalid
    else .error invalid

def toDatetime (year month day : ℕ) (time : Time) (offset : Option ℤ) : Except PyError DateTime :=
  if h : (1 ≤ month ∧ month ≤ 12) ∧ 1 ≤ day ∧ day ≤ daysInMonth (isLeap year) month then
    if 1 ≤ year ∧ year ≤ 9999 ∧ time.hour < 24 ∧ time.minute < 60 ∧ time.second < 60 then
      .ok ⟨clock ⟨year, month, day, h.1, h.2⟩ time, offset⟩
    else .error invalid
  else .error invalid

def fromisoText (cs : List Char) : Except PyError DateTime := do
  let ((year, month, day), cs) ← readDate cs
  if cs = [] then toDatetime year month day {} none
  else do
    -- any one character stands between the date and the time
    let cs := cs.drop 1
    let time ← readTime (cs.takeWhile (!isSign ·))
    let offset ← readOffset (cs.dropWhile (!isSign ·))
    toDatetime year month day time offset

def fromisoformat (s : String) : Except PyError DateTime := fromisoText s.toList

theorem length_pad (k n : ℕ) : (pad k n).length = k := by
  induction k generalizing n with
  | zero => rfl
  | succ k ih => rw [pad, List.length_append, ih, List.length_singleton]

theorem pad_digits (k n : ℕ) : ∀ c ∈ pad k n, c.isDigit := by
  induction k generalizing n with
  | zero => simp [pad]
  | succ k ih =>
    intro c hc
    rcases List.mem_append.mp hc with hc | hc
    · exact ih (n / 10) c hc
    · rw [List.mem_singleton.mp hc, Nat.isDigit_digitChar]
      exact decide_eq_true (Nat.mod_lt n (by decide))

theorem number_pad {k n : ℕ} (h : n < 10 ^ k) : number (pad k n) = n := by
  induction k generalizing n with
  | zero =>
    obtain rfl : n = 0 := by omega
    rfl
  | succ k ih =>
    have hn : n / 10 < 10 ^ k := by
      rw [Nat.pow_succ] at h
      omega
    rw [number, pad, Nat.ofDigitChars_append,
      Nat.ofDigitChars_cons_digitChar_of_lt_ten (Nat.mod_lt n (by decide)), Nat.ofDigitChars_nil]
    have := ih hn
    rw [number] at this
    omega

theorem number_append (a b : List Char) : number (a ++ b) = 10 ^ b.length * number a + number b := by
  rw [number, Nat.ofDigitChars_append, Nat.ofDigitChars_eq_ofDigitChars_zero]
  rfl

theorem number_lt {digits : List Char} (h : ∀ c ∈ digits, c.isDigit) :
    number digits < 10 ^ digits.length := by
  induction digits using List.reverseRecOn with
  | nil => decide
  | append_singleton digits c ih =>
    have hrest := ih fun d hd => h d (by simp [hd])
    have hc := PyInt.toNat_of_isDigit (h c (by simp))
    have hone : number [c] = c.toNat - 48 := by simp [number, Nat.ofDigitChars_cons]
    rw [number_append, hone, List.length_append, List.length_singleton, Nat.pow_succ]
    omega

theorem readNumber_digits {ds rest : List Char} {k : ℕ} (hl : ds.length = k)
    (hd : ∀ c ∈ ds, c.isDigit) : readNumber k (ds ++ rest) = .ok (number ds, rest) := by
  subst hl
  have hle : ds.length ≤ (ds ++ rest).length := by simp
  rw [readNumber, List.take_left, List.drop_left, if_pos ⟨hle, List.all_eq_true.mpr hd⟩]

theorem readNumber_pad {k n : ℕ} (h : n < 10 ^ k) (rest : List Char) :
    readNumber k (pad k n ++ rest) = .ok (n, rest) := by
  rw [readNumber_digits (length_pad k n) (pad_digits k n), number_pad h]

theorem expect_cons (c : Char) (cs : List Char) : expect c (c :: cs) = .ok cs := if_pos rfl

theorem readDate_text {year month day : ℕ} (hy : year < 10000) (hm : month < 100) (hd : day < 100)
    (rest : List Char) :
    readDate (dateText year month day ++ rest) = .ok ((year, month, day), rest) := by
  simp only [readDate, dateText, List.append_assoc, List.cons_append]
  rw [readNumber_pad (by omega)]
  simp only [Except.bind, bind]
  rw [expect_cons]
  simp only [readNumber_pad (k := 2) (n := month) (by omega)]
  rw [expect_cons]
  simp only [readNumber_pad (k := 2) (n := day) (by omega)]

theorem readTime_text {hour minute second : ℕ} (hh : hour < 100) (hm : minute < 100)
    (hs : second < 100) (rest : List Char) :
    readTime (timeText hour minute second ++ rest) =
      (readFraction rest).map fun microsecond => ⟨hour, minute, second, microsecond⟩ := by
  simp only [readTime, timeText, List.append_assoc, List.cons_append]
  rw [readNumber_pad (by omega)]
  simp only [Except.bind, bind]
  rw [if_neg (by simp), expect_cons]
  simp only [readNumber_pad (k := 2) (n := minute) (by omega)]
  rw [readSecond, if_neg (by simp), expect_cons]
  simp only [readNumber_pad (k := 2) (n := second) (by omega), Except.bind, bind]
  cases readFraction rest <;> rfl

theorem readTime_minutes {hour minute : ℕ} (hh : hour < 100) (hm : minute < 100) :
    readTime (pad 2 hour ++ ':' :: pad 2 minute) = .ok { hour, minute } := by
  rw [readTime, readNumber_pad (by omega)]
  simp only [Except.bind, bind]
  have hread := readNumber_pad (k := 2) (n := minute) (by omega) []
  rw [List.append_nil] at hread
  rw [if_neg (by simp), expect_cons]
  simp only [hread]
  rfl

theorem readOffset_text (sign : Char) {hour minute : ℕ} (hh : hour < 24) (hm : minute < 60) :
    readOffset (sign :: (pad 2 hour ++ ':' :: pad 2 minute)) =
      .ok (some (if sign = '-' then -((hour * 60 + minute) * 60000000)
        else (hour * 60 + minute) * 60000000)) := by
  have hl : (pad 2 hour ++ ':' :: pad 2 minute).length = 5 := by simp [length_pad]
  have hmicros : ({ hour, minute } : Time).micros = (hour * 60 + minute) * 60000000 := by
    simp only [Time.micros]
    omega
  rw [readOffset, hl, if_pos (by decide), readTime_minutes (by omega) (by omega)]
  simp only [Except.bind, bind, hmicros]
  by_cases hs : sign = '-'
  · simp only [if_pos hs]
    rw [if_pos (by omega)]
  · simp only [if_neg hs]
    rw [if_pos (by omega)]

def fractionText (digits : List Char) : List Char := if digits = [] then [] else '.' :: digits

def Readable (digits : List Char) : Prop := digits.length = 0 ∨ digits.length = 3 ∨ digits.length = 6

instance (digits : List Char) : Decidable (Readable digits) := inferInstanceAs (Decidable (_ ∨ _))

def microsOf (digits : List Char) : ℕ := number digits * 1000000 / 10 ^ digits.length

theorem readFraction_text {digits : List Char} (hd : ∀ c ∈ digits, c.isDigit) :
    readFraction (fractionText digits) =
      if Readable digits then .ok (microsOf digits) else .error invalid := by
  have hread {k : ℕ} (hl : digits.length = k) : readNumber k digits = .ok (number digits, []) := by
    have h : readNumber k (digits ++ []) = .ok (number digits, []) := readNumber_digits hl hd
    rwa [List.append_nil] at h
  by_cases hn : digits = []
  · subst hn
    rfl
  have hpos : digits.length ≠ 0 := fun h => hn (List.eq_nil_of_length_eq_zero h)
  rw [fractionText, if_neg hn, readFraction, if_neg (by simp), expect_cons]
  simp only [Except.bind, bind]
  by_cases h3 : digits.length = 3
  · rw [if_pos h3, hread h3, if_pos (.inr (.inl h3)), microsOf, h3]
    have : number digits * 1000000 / 10 ^ 3 = number digits * 1000 := by omega
    rw [this]
  by_cases h6 : digits.length = 6
  · rw [if_neg h3, if_pos h6, hread h6, if_pos (.inr (.inr h6)), microsOf, h6]
    have : number digits * 1000000 / 10 ^ 6 = number digits := by omega
    rw [this]
  · rw [if_neg h3, if_neg h6, if_neg]
    rintro (h | h | h)
    · exact hpos h
    · exact h3 h
    · exact h6 h

theorem isSign_of_isDigit {c : Char} (h : c.isDigit) : isSign c = false := by
  rw [isSign, Bool.or_eq_false_iff, decide_eq_false_iff_not, decide_eq_false_iff_not]
  constructor <;> rintro rfl <;> exact absurd h (by decide)

theorem fractionText_noSign {digits : List Char} (hd : ∀ c ∈ digits, c.isDigit) :
    ∀ c ∈ fractionText digits, isSign c = false := by
  intro c hc
  unfold fractionText at hc
  split_ifs at hc
  · contradiction
  · rcases List.mem_cons.mp hc with rfl | hc
    · rfl
    · exact isSign_of_isDigit (hd c hc)

theorem timeText_noSign (hour minute second : ℕ) :
    ∀ c ∈ timeText hour minute second, isSign c = false := by
  intro c hc
  simp only [timeText, List.mem_append, List.mem_cons] at hc
  rcases hc with hc | rfl | hc | rfl | hc
  · exact isSign_of_isDigit (pad_digits 2 hour c hc)
  · rfl
  · exact isSign_of_isDigit (pad_digits 2 minute c hc)
  · rfl
  · exact isSign_of_isDigit (pad_digits 2 second c hc)

theorem fromisoText_split {year month day : ℕ} (hy : year < 10000) (hm : month < 100)
    (hd : day < 100) {sign : Char} {time : List Char} (ht : ∀ c ∈ time, isSign c = false)
    (hs : isSign sign) (offset : List Char) :
    fromisoText (dateText year month day ++ 'T' :: (time ++ sign :: offset)) =
      (readTime time).bind fun t => (readOffset (sign :: offset)).bind
        (toDatetime year month day t) := by
  have htake : (time ++ sign :: offset).takeWhile (!isSign ·) = time := by
    rw [List.takeWhile_append_of_pos (by simpa using ht), List.takeWhile_cons]
    simp [hs]
  have hdrop : (time ++ sign :: offset).dropWhile (!isSign ·) = sign :: offset := by
    rw [List.dropWhile_append_of_pos (by simpa using ht), List.dropWhile_cons]
    simp [hs]
  rw [fromisoText, readDate_text hy hm hd]
  simp only [Except.bind, bind, reduceCtorEq, if_false, List.drop_succ_cons, List.drop_zero, htake,
    hdrop]

end IpfsLite.PyDatetime
