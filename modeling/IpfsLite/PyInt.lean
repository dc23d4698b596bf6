import IpfsLite.Exceptions

/-! `int` and `str` of Python, between integers and decimal numerals. -/

namespace IpfsLite.PyInt

def maxStrDigits : ℕ := 4300

def isBlank (c : Char) : Bool := c ∈ [' ', '\t', '\n', '\x0b', '\x0c', '\r']

def strip (cs : List Char) : List Char := ((cs.dropWhile isBlank).reverse.dropWhile isBlank).reverse

def isDecimal : List Char → Bool
  | [] => false
  | [c] => c.isDigit
  | c :: '_' :: cs => c.isDigit && isDecimal cs
  | c :: cs => c.isDigit && isDecimal cs

def unsigned (cs : List Char) : Except PyError ℤ :=
  let digits := cs.filter (· ≠ '_')
  if ¬isDecimal cs then .error ⟨.valueError, "invalid literal for int() with base 10"⟩
  else if maxStrDigits < digits.length then
    .error ⟨.valueError, "Exceeds the limit (4300 digits) for integer string conversion"⟩
  else .ok (Nat.ofDigitChars 10 digits 0)

/-- `toAscii` makes the digits and blanks of Unicode those of ASCII. -/
def int (toAscii : Char → Char) (s : String) : Except PyError ℤ :=
  match strip (s.toList.map toAscii) with
  | '-' :: cs => (unsigned cs).map Neg.neg
  | '+' :: cs => unsigned cs
  | cs => unsigned cs

def str (n : ℤ) : Except PyError String :=
  if maxStrDigits < (Nat.toDigits 10 n.natAbs).length then
    .error ⟨.valueError, "Exceeds the limit (4300 digits) for integer string conversion"⟩
  else .ok (toString n)

/-- `format(q, ".0f")` -/
def fixed (q : ℚ) : String :=
  let rest := q - ⌊q⌋
  toString (if rest < 1 / 2 ∨ rest = 1 / 2 ∧ ⌊q⌋ % 2 = 0 then ⌊q⌋ else ⌊q⌋ + 1)

theorem isDecimal_of_digits {cs : List Char} (hne : cs ≠ []) (h : ∀ c ∈ cs, c.isDigit) :
    isDecimal cs := by
  induction cs using isDecimal.induct with
  | case1 => exact absurd rfl hne
  | case2 c => simpa [isDecimal] using h c
  | case3 c cs ih => exact absurd (h '_' (by simp)) (by decide)
  | case4 c cs hcs hc ih =>
    rw [isDecimal.eq_4 c cs hcs hc, Bool.and_eq_true]
    exact ⟨h c (by simp), ih hcs fun d hd => h d (by simp [hd])⟩

theorem toNat_of_isDigit {c : Char} (h : c.isDigit) : 48 ≤ c.toNat ∧ c.toNat ≤ 57 := by
  simpa [Char.isDigit, UInt32.le_iff_toNat_le] using h

theorem isBlank_of_isDigit {c : Char} (h : c.isDigit) : isBlank c = false := by
  have hc := toNat_of_isDigit h
  by_contra hb
  simp only [isBlank, Bool.not_eq_false, List.mem_cons, decide_eq_true_eq, List.not_mem_nil,
    or_false] at hb
  rcases hb with rfl | rfl | rfl | rfl | rfl | rfl <;> simp at hc

theorem strip_of_not_blank {cs : List Char} (h : ∀ c ∈ cs, isBlank c = false) : strip cs = cs := by
  have trim {ds : List Char} (hd : ∀ c ∈ ds, isBlank c = false) : ds.dropWhile isBlank = ds := by
    cases ds with
    | nil => rfl
    | cons d ds => simp [hd d (by simp)]
  rw [strip, trim h, trim (by simpa using h), List.reverse_reverse]

theorem strip_of_digits {cs : List Char} (h : ∀ c ∈ cs, c.isDigit) : strip cs = cs := by
  apply strip_of_not_blank
  intro c hc
  exact isBlank_of_isDigit (h c hc)

theorem unsigned_of_digits {cs : List Char} (hne : cs ≠ []) (h : ∀ c ∈ cs, c.isDigit)
    (hl : cs.length ≤ maxStrDigits) : unsigned cs = .ok (Nat.ofDigitChars 10 cs 0) := by
  have hf : cs.filter (· ≠ '_') = cs := by
    apply List.filter_eq_self.mpr
    intro c hc
    apply decide_eq_true
    rintro rfl
    exact absurd (h '_' hc) (by decide)
  simp only [unsigned, hf, isDecimal_of_digits hne h, not_true, if_false, if_neg (Nat.not_lt.mpr hl)]

theorem toDigits_isDigit (n : ℕ) : ∀ c ∈ Nat.toDigits 10 n, c.isDigit := by
  intro c hc
  exact Nat.isDigit_of_mem_toDigits (by decide) (by decide) hc

theorem int_toDigits {toAscii : Char → Char} (ha : ∀ c, c.toNat < 127 → toAscii c = c) (n : ℕ)
    (hl : (Nat.toDigits 10 n).length ≤ maxStrDigits) : int toAscii n.repr = .ok n := by
  have hd := toDigits_isDigit n
  have hm : (Nat.toDigits 10 n).map toAscii = Nat.toDigits 10 n := by
    calc (Nat.toDigits 10 n).map toAscii = (Nat.toDigits 10 n).map id := by
          apply List.map_congr_left
          intro c hc
          have := toNat_of_isDigit (hd c hc)
          exact ha c (by omega)
      _ = Nat.toDigits 10 n := List.map_id _
  have hu := unsigned_of_digits Nat.toDigits_ne_nil hd hl
  rw [Nat.ofDigitChars_ten_toDigits] at hu
  rw [int, Nat.toList_repr, hm, strip_of_digits hd]
  split
  next he => exact absurd (hd '-' (by simp [he])) (by decide)
  next he => exact absurd (hd '+' (by simp [he])) (by decide)
  next => exact hu

theorem ofNat_toList (n : ℕ) : (toString (Int.ofNat n)).toList = Nat.toDigits 10 n := Nat.toList_repr

theorem negSucc_toList (n : ℕ) : (toString (Int.negSucc n)).toList = '-' :: Nat.toDigits 10 (n + 1) := by
  change ("-" ++ (n + 1).repr).toList = _
  simp [Nat.toList_repr]

theorem int_str {n : ℤ} {s : String} (h : str n = .ok s) : int id s = .ok n := by
  unfold str at h
  split at h
  · contradiction
  · next hl =>
    obtain rfl := Except.ok.inj h
    cases n with
    | ofNat n => exact int_toDigits (fun c _ => rfl) n (by simpa using hl)
    | negSucc n =>
      have hd := toDigits_isDigit (n + 1)
      have hstrip : strip ('-' :: Nat.toDigits 10 (n + 1)) = '-' :: Nat.toDigits 10 (n + 1) := by
        apply strip_of_not_blank
        intro c hc
        rcases List.mem_cons.mp hc with rfl | hc
        · rfl
        · exact isBlank_of_isDigit (hd c hc)
      have hu := unsigned_of_digits Nat.toDigits_ne_nil hd (by simpa [Int.natAbs_negSucc] using hl)
      rw [Nat.ofDigitChars_ten_toDigits] at hu
      rw [int, List.map_id, negSucc_toList, hstrip]
      change (unsigned (Nat.toDigits 10 (n + 1))).map Neg.neg = _
      rw [hu]
      rfl

end IpfsLite.PyInt
