import IpfsLite.IpldDocument

namespace IpfsLite.Ipld

open Ipns PyInt PyJson

section Numbers

def IsDigits (cs : List Char) : Prop := cs ≠ [] ∧ ∀ c ∈ cs, c.isDigit = true

def IsWhole (cs : List Char) : Prop :=
  cs = ['0'] ∨ ∃ c ds, cs = c :: ds ∧ c ≠ '0' ∧ ∀ d ∈ cs, d.isDigit = true

def IsInteger (cs : List Char) : Prop := IsWhole cs ∨ ∃ ds, cs = '-' :: ds ∧ IsWhole ds

def IsFrac (cs : List Char) : Prop := cs = [] ∨ ∃ ds, cs = '.' :: ds ∧ IsDigits ds

def IsExp (cs : List Char) : Prop :=
  cs = [] ∨ ∃ sign ds, sign ∈ [[], ['-'], ['+']] ∧ cs = 'e' :: (sign ++ ds) ∧ IsDigits ds

/-- The `repr` of a finite float is a number with a fraction or an exponent, and `float` reads it. -/
structure FloatReads (lib : IpldLib) (parseFloat : List Char → BitVec 64) : Prop where
  text : ∀ x, ∃ integer frac exp, (lib.floatRepr x).toList = integer ++ frac ++ exp ∧
    IsInteger integer ∧ IsFrac frac ∧ IsExp exp ∧ ¬(frac = [] ∧ exp = [])
  parse : ∀ x, parseFloat (lib.floatRepr x).toList = x.1

def Closes (rest : List Char) : Prop := ∀ c ∈ rest.head?, c ∈ [',', ']', '}']

theorem closes_cons {c : Char} (h : c ∈ [',', ']', '}']) (rest : List Char) : Closes (c :: rest) := by
  intro d hd
  obtain rfl := Option.some.inj hd
  exact h

def NoDigit (rest : List Char) : Prop := ∀ c ∈ rest.head?, c.isDigit = false

theorem Closes.noDigit {rest : List Char} (h : Closes rest) : NoDigit rest := by
  intro c hc
  have hmark := h c hc
  revert hmark
  simp only [List.mem_cons, List.not_mem_nil, or_false]
  rintro (rfl | rfl | rfl) <;> rfl

theorem noDigit_cons {c : Char} (h : c.isDigit = false) (rest : List Char) : NoDigit (c :: rest) := by
  intro d hd
  obtain rfl := Option.some.inj hd
  exact h

theorem span_digits {ds rest : List Char} (hd : ∀ c ∈ ds, c.isDigit = true) (hr : NoDigit rest) :
    (ds ++ rest).takeWhile Char.isDigit = ds ∧ (ds ++ rest).dropWhile Char.isDigit = rest := by
  rw [List.takeWhile_append_of_pos hd, List.dropWhile_append_of_pos hd]
  cases rest with
  | nil => simp
  | cons c rest =>
    have hc : c.isDigit = false := hr c rfl
    simp [hc]

theorem matchWhole_append {cs rest : List Char} (h : IsWhole cs) (hr : NoDigit rest) :
    matchWhole (cs ++ rest) = some (cs, rest) := by
  rcases h with rfl | ⟨c, ds, rfl, hc, hd⟩
  · rfl
  · obtain ⟨htake, hdrop⟩ := span_digits (fun d hd' => hd d (List.mem_cons_of_mem c hd')) hr
    rw [List.cons_append, matchWhole]
    · rw [if_pos (hd c (by simp)), htake, hdrop]
    · exact hc

theorem matchInteger_append {cs rest : List Char} (h : IsInteger cs) (hr : NoDigit rest) :
    matchInteger (cs ++ rest) = some (cs, rest) := by
  rcases h with h | ⟨ds, rfl, h⟩
  · have hhead : ∀ t, cs ++ rest ≠ '-' :: t := by
      intro t ht
      rcases h with rfl | ⟨c, ds, rfl, -, hd⟩
      · simp at ht
      · obtain rfl := (List.cons.inj ht).1
        exact absurd (hd '-' (by simp)) (by decide)
    rw [matchInteger, matchWhole_append h hr]
    exact hhead
  · rw [List.cons_append, matchInteger, matchWhole_append h hr]
    rfl

theorem matchFrac_append {cs rest : List Char} (h : IsFrac cs) (hr : NoDigit rest)
    (hdot : rest.head? ≠ some '.') : matchFrac (cs ++ rest) = (cs, rest) := by
  rcases h with rfl | ⟨ds, rfl, hne, hd⟩
  · rw [List.nil_append, matchFrac]
    rintro t rfl
    exact hdot rfl
  · obtain ⟨htake, hdrop⟩ := span_digits hd hr
    rw [List.cons_append, matchFrac, htake, hdrop, if_neg hne]

theorem matchSign_append {sign ds rest : List Char} (hs : sign ∈ [[], ['-'], ['+']]) (hd : IsDigits ds) :
    matchSign (sign ++ (ds ++ rest)) = (sign, ds ++ rest) := by
  simp only [List.mem_cons, List.not_mem_nil, or_false] at hs
  rcases hs with rfl | rfl | rfl
  · obtain ⟨hne, hd⟩ := hd
    obtain ⟨d, ds, rfl⟩ := List.exists_cons_of_ne_nil hne
    have hdigit := hd d (by simp)
    rw [List.nil_append, List.cons_append, matchSign]
    · rintro t ht
      obtain rfl := (List.cons.inj ht).1
      exact absurd hdigit (by decide)
    · rintro t ht
      obtain rfl := (List.cons.inj ht).1
      exact absurd hdigit (by decide)
  · rfl
  · rfl

theorem matchExp_append {cs rest : List Char} (h : IsExp cs) (hr : Closes rest) :
    matchExp (cs ++ rest) = (cs, rest) := by
  rcases h with rfl | ⟨sign, ds, hs, rfl, hd⟩
  · cases rest with
    | nil => rfl
    | cons c rest =>
      have hc := hr c rfl
      have hne : ¬(c = 'e' ∨ c = 'E') := by
        simp only [List.mem_cons, List.not_mem_nil, or_false] at hc
        rcases hc with rfl | rfl | rfl <;> decide
      simp [matchExp, hne]
  · obtain ⟨htake, hdrop⟩ := span_digits hd.2 hr.noDigit
    have htext : 'e' :: (sign ++ ds) ++ rest = 'e' :: (sign ++ (ds ++ rest)) := by simp
    rw [htext, matchExp, matchSign_append hs hd]
    simp [htake, hdrop, hd.1]

theorem matchNumber_append {integer frac exp rest : List Char} (hi : IsInteger integer) (hf : IsFrac frac)
    (he : IsExp exp) (hr : Closes rest) :
    matchNumber (integer ++ frac ++ exp ++ rest) = some ⟨integer, frac, exp, rest⟩ := by
  have hexp : NoDigit (exp ++ rest) ∧ (exp ++ rest).head? ≠ some '.' := by
    rcases he with rfl | ⟨sign, ds, -, rfl, -⟩
    · refine ⟨hr.noDigit, fun hdot => ?_⟩
      exact absurd (hr '.' hdot) (by decide)
    · exact ⟨noDigit_cons (by decide) _, by simp⟩
  have hfrac : NoDigit (frac ++ (exp ++ rest)) := by
    rcases hf with rfl | ⟨ds, rfl, -⟩
    · exact hexp.1
    · exact noDigit_cons (by decide) _
  have htext : integer ++ frac ++ exp ++ rest = integer ++ (frac ++ (exp ++ rest)) := by simp
  rw [htext, matchNumber, matchInteger_append hi hfrac]
  simp only [Option.map_some, matchFrac_append hf hexp.1 hexp.2, matchExp_append he hr]

theorem toDigits_head {n : ℕ} (h : 0 < n) : ∃ c ds, Nat.toDigits 10 n = c :: ds ∧ c ≠ '0' := by
  induction n using Nat.strong_induction_on with
  | _ n ih =>
    by_cases hsmall : n < 10
    · refine ⟨Nat.digitChar n, [], Nat.toDigits_of_lt_base hsmall, ?_⟩
      intro hzero
      exact absurd (digitChar_inj (a := n) (b := 0) (by omega) (by decide) hzero) (by omega)
    · obtain ⟨c, ds, htext, hc⟩ := ih (n / 10) (by omega) (by omega)
      have hsplit := Nat.toDigits_append_toDigits (b := 10) (n := n / 10) (d := n % 10) (by decide)
        (by omega) (Nat.mod_lt n (by decide))
      rw [Nat.div_add_mod, htext] at hsplit
      exact ⟨c, _, hsplit.symm, hc⟩

theorem isWhole_toDigits (n : ℕ) : IsWhole (Nat.toDigits 10 n) := by
  rcases Nat.eq_zero_or_pos n with rfl | hn
  · exact .inl rfl
  · obtain ⟨c, ds, htext, hc⟩ := toDigits_head hn
    exact .inr ⟨c, ds, htext, hc, toDigits_isDigit n⟩

theorem isInteger_text (i : ℤ) : IsInteger (toString i).toList := by
  cases i with
  | ofNat n =>
    rw [ofNat_toList]
    exact .inl (isWhole_toDigits n)
  | negSucc n =>
    rw [negSucc_toList]
    exact .inr ⟨_, rfl, isWhole_toDigits (n + 1)⟩

end Numbers

section Reading

variable (parseFloat : List Char → BitVec 64)

def Reads (cs : List Char) (v : PyValue) : Prop :=
  ∀ n rest, cs.length < n → Closes rest → scanOnce parseFloat n (cs ++ rest) = .ok (v, rest)

variable {parseFloat}

theorem scanOnce_atom {n : ℕ} {cs : List Char} {p : PyValue × List Char} (h : scanAtom parseFloat cs = .ok p) :
    scanOnce parseFloat (n + 1) cs = .ok p := by
  rw [scanOnce]
  · exact h
  · rintro t rfl
    cases h
  · rintro t rfl
    cases h
  · rintro t rfl
    cases h

theorem scanOnce_head {n : ℕ} {c : Char} {t : List Char} {p : PyValue × List Char}
    (h : scanOnce parseFloat n (c :: t) = .ok p) : c ∉ [' ', '\t', '\n', '\r', ']'] := by
  intro hc
  simp only [List.mem_cons, List.not_mem_nil, or_false] at hc
  cases n with
  | zero => cases h
  | succ n => rcases hc with rfl | rfl | rfl | rfl | rfl <;> cases h

theorem Reads.head {cs : List Char} {v : PyValue} (h : Reads parseFloat cs v) (rest : List Char) :
    skipBlanks (cs ++ rest) = cs ++ rest ∧ ∀ t, cs ++ rest ≠ ']' :: t := by
  have hread := h (cs.length + 1) [] (Nat.lt_succ_self _) (by simp [Closes])
  rw [List.append_nil] at hread
  cases cs with
  | nil => cases hread
  | cons c cs =>
    have hc := scanOnce_head hread
    constructor
    · apply List.dropWhile_cons_of_neg
      intro hblank
      apply hc
      have hmem : c ∈ [' ', '\t', '\n', '\r'] := of_decide_eq_true hblank
      simp only [List.mem_cons, List.not_mem_nil, or_false] at hmem ⊢
      tauto
    · intro t ht
      obtain rfl := (List.cons.inj ht).1
      exact hc (by simp)

structure ScansList {α : Type} (scan : ℕ → List Char → Except PyError (List α × List Char))
    (IsText : List Char → α → Prop) (mark : Char) : Prop where
  head : ∀ t a rest, IsText t a → skipBlanks (t ++ rest) = t ++ rest ∧ ∀ u, t ++ rest ≠ mark :: u
  last : ∀ t a n rest, IsText t a → t.length < n → scan (n + 1) (t ++ mark :: rest) = .ok ([a], rest)
  more : ∀ t a n cs, IsText t a → t.length < n → skipBlanks cs = cs →
    scan (n + 1) (t ++ ',' :: cs) = (scan n cs).map fun p => (a :: p.1, p.2)

section Lists

variable {α : Type} {scan : ℕ → List Char → Except PyError (List α × List Char)}
  {IsText : List Char → α → Prop} {mark : Char}

theorem ScansList.texts (h : ScansList scan IsText mark) {ts : List (List Char)} {as : List α}
    (hts : List.Forall₂ IsText ts as) : ∀ t a n rest, IsText t a →
      (t ++ ts.flatMap (',' :: ·)).length + 1 < n →
        scan n (t ++ (ts.flatMap (',' :: ·) ++ mark :: rest)) = .ok (a :: as, rest) := by
  induction hts with
  | nil =>
    intro t a n rest ht hn
    obtain ⟨n, rfl⟩ := Nat.exists_eq_succ_of_ne_zero (show n ≠ 0 by omega)
    apply h.last t a n rest ht
    rw [List.flatMap_nil, List.append_nil] at hn
    omega
  | @cons u b us bs hu _ ih =>
    intro t a n rest ht hn
    obtain ⟨n, rfl⟩ := Nat.exists_eq_succ_of_ne_zero (show n ≠ 0 by omega)
    have htext : t ++ ((u :: us).flatMap (',' :: ·) ++ mark :: rest) =
        t ++ ',' :: (u ++ (us.flatMap (',' :: ·) ++ mark :: rest)) := by simp
    have hlength : t.length + ((u ++ us.flatMap (',' :: ·)).length + 1) + 1 < n + 1 := by
      simp only [List.flatMap_cons, List.length_append, List.length_cons] at hn ⊢
      omega
    have hskip := (h.head u b (us.flatMap (',' :: ·) ++ mark :: rest) hu).1
    rw [htext, h.more t a n _ ht (by omega) hskip, ih u b n rest hu (by omega)]
    rfl

theorem ScansList.reads (h : ScansList scan IsText mark) {start : Char} (make : List α → PyValue)
    (hnil : ∀ n rest, scanOnce parseFloat (n + 1) (start :: mark :: rest) = .ok (make [], rest))
    (hcons : ∀ n cs rest as, skipBlanks cs = cs → (∀ u, cs ≠ mark :: u) → scan n cs = .ok (as, rest) →
      scanOnce parseFloat (n + 1) (start :: cs) = .ok (make as, rest))
    {ts : List (List Char)} {as : List α} (hts : List.Forall₂ IsText ts as) :
    Reads parseFloat (start :: ([','].intercalate ts ++ [mark])) (make as) := by
  intro n rest hn _
  obtain ⟨n, rfl⟩ := Nat.exists_eq_succ_of_ne_zero (show n ≠ 0 by omega)
  cases hts with
  | nil => exact hnil n rest
  | @cons t a ts as ht hts =>
    rw [PrefixCode.intercalate_cons] at hn ⊢
    have htext : start :: (t ++ ts.flatMap (',' :: ·) ++ [mark]) ++ rest =
        start :: (t ++ (ts.flatMap (',' :: ·) ++ mark :: rest)) := by simp
    have hlength : (t ++ ts.flatMap (',' :: ·)).length + 1 < n := by
      simp only [List.length_cons, List.length_append, List.length_nil] at hn ⊢
      omega
    obtain ⟨hskip, hhead⟩ := h.head t a (ts.flatMap (',' :: ·) ++ mark :: rest) ht
    rw [htext]
    exact hcons n _ rest _ hskip hhead (h.texts hts t a n rest ht hlength)

end Lists

theorem scanItems_scans : ScansList (scanItems parseFloat) (Reads parseFloat) ']' where
  head _ _ rest h := h.head rest
  last t v n rest h hn := by
    rw [scanItems, h n (']' :: rest) hn (closes_cons (by decide) rest)]
    rfl
  more t v n cs h hn hcs := by
    rw [scanItems, h n (',' :: cs) hn (closes_cons (by decide) cs)]
    change (scanItems parseFloat n (skipBlanks cs)).map _ = _
    rw [hcs]

theorem reads_array {ts : List (List Char)} {vs : List PyValue} (h : List.Forall₂ (Reads parseFloat) ts vs) :
    Reads parseFloat ('[' :: ([','].intercalate ts ++ [']'])) (.list vs) := by
  refine scanItems_scans.reads .list (fun _ _ => rfl) ?_ h
  intro n cs rest vs hskip hhead hscan
  rw [scanOnce, hskip]
  split
  · exact absurd rfl (hhead _)
  · rw [hscan]
    rfl

variable (parseFloat) in
def ReadsMember (t : List Char) (e : PyValue × PyValue) : Prop :=
  ∃ (key : PyStr) (text : List Char), t = encodeBasestringAscii key ++ ':' :: text ∧ e.1 = .str key.joined ∧
    Reads parseFloat text e.2

theorem ReadsMember.scan {t : List Char} {e : PyValue × PyValue} (h : ReadsMember parseFloat t e) {n : ℕ}
    {rest : List Char} (hn : t.length < n) (hr : Closes rest) : ∃ key cs, e.1 = .str key ∧
      t ++ rest = '"' :: cs ∧ ∃ after, scanString cs = .ok (key, ':' :: after) ∧
        skipBlanks after = after ∧ scanOnce parseFloat n after = .ok (e.2, rest) := by
  obtain ⟨key, text, rfl, hkey, hv⟩ := h
  refine ⟨key.joined, key.codePoints.flatMap escape ++ '"' :: ':' :: (text ++ rest), hkey, ?_, text ++ rest, ?_, ?_, ?_⟩
  · simp [encodeBasestringAscii]
  · exact scanString_text key (':' :: (text ++ rest))
  · exact (hv.head rest).1
  · apply hv n rest _ hr
    rw [List.length_append, List.length_cons] at hn
    omega

theorem scanMembers_scans : ScansList (scanMembers parseFloat) (ReadsMember parseFloat) '}' where
  head t e rest h := by
    obtain ⟨key, text, rfl, -⟩ := h
    exact ⟨rfl, fun u hu => by simp [encodeBasestringAscii] at hu⟩
  last t e n rest h hn := by
    obtain ⟨key, cs, hkey, htext, after, hstring, hskip, hread⟩ :=
      h.scan hn (closes_cons (show '}' ∈ [',', ']', '}'] by decide) rest)
    rw [htext, scanMembers, hstring]
    change Except.bind (scanOnce parseFloat n (skipBlanks after)) _ = _
    rw [hskip, hread, ← hkey]
    rfl
  more t e n cs h hn hcs := by
    obtain ⟨key, body, hkey, htext, after, hstring, hskip, hread⟩ :=
      h.scan hn (closes_cons (show ',' ∈ [',', ']', '}'] by decide) cs)
    rw [htext, scanMembers, hstring]
    change Except.bind (scanOnce parseFloat n (skipBlanks after)) _ = _
    rw [hskip, hread, ← hkey]
    change (scanMembers parseFloat n (skipBlanks cs)).map _ = _
    rw [hcs]

theorem reads_object {ts : List (List Char)} {es : List (PyValue × PyValue)}
    (h : List.Forall₂ (ReadsMember parseFloat) ts es) :
    Reads parseFloat ('{' :: ([','].intercalate ts ++ ['}'])) (.dict (PyValue.dictOf es)) := by
  refine scanMembers_scans.reads (fun es => .dict (PyValue.dictOf es)) (fun _ _ => rfl) ?_ h
  intro n cs rest es hskip hhead hscan
  rw [scanOnce, hskip]
  split
  · exact absurd rfl (hhead _)
  · rw [hscan]
    rfl

theorem reads_atom {cs : List Char} {v : PyValue}
    (h : ∀ rest, Closes rest → scanAtom parseFloat (cs ++ rest) = .ok (v, rest)) : Reads parseFloat cs v := by
  intro n rest hn hr
  obtain ⟨n, rfl⟩ := Nat.exists_eq_succ_of_ne_zero (show n ≠ 0 by omega)
  exact scanOnce_atom (h rest hr)

theorem reads_word {word : List Char} {v : PyValue}
    (h : ∀ rest, scanAtom parseFloat (word ++ rest) = .ok (v, rest)) : Reads parseFloat word v :=
  reads_atom fun rest _ => h rest

theorem reads_int {i : ℤ} {s : String} (h : str i = .ok s) : Reads parseFloat s.toList (.int i) := by
  have hs : s = toString i := by
    unfold str at h
    split at h
    · contradiction
    · exact (Except.ok.inj h).symm
  apply reads_atom
  intro rest hr
  have hmatch := matchNumber_append (isInteger_text i) (.inl rfl) (.inl rfl) hr
  rw [List.append_nil, List.append_nil] at hmatch
  rw [hs, scanAtom, hmatch]
  simp [NumberMatch.value, ← hs, int_str h, Except.map]

theorem reads_float {lib : IpldLib} (hf : FloatReads lib parseFloat) (x : FiniteFloat) :
    Reads parseFloat (lib.floatRepr x).toList (.float x.1) := by
  apply reads_atom
  intro rest hr
  obtain ⟨integer, frac, exp, htext, hi, hfrac, hexp, hpoint⟩ := hf.text x
  have hparse := hf.parse x
  rw [htext] at hparse
  rw [htext, scanAtom, matchNumber_append hi hfrac hexp hr]
  simp only [NumberMatch.value, if_neg hpoint, hparse, Except.map]

theorem reads_string (s : PyStr) : Reads parseFloat (encodeBasestringAscii s) (.str s.joined) := by
  intro n rest hn _
  obtain ⟨n, rfl⟩ := Nat.exists_eq_succ_of_ne_zero (show n ≠ 0 by omega)
  have htext : encodeBasestringAscii s ++ rest = '"' :: (s.codePoints.flatMap escape ++ '"' :: rest) := by
    simp [encodeBasestringAscii]
  rw [htext, scanOnce, scanString_text]
  rfl

theorem jsonLoads_reads {cs : List Char} {v : PyValue} (h : Reads parseFloat cs v) :
    jsonLoads parseFloat (String.ofList cs) = .ok v := by
  have hhead := (h.head []).1
  have hread := h (cs.length + 1) [] (Nat.lt_succ_self _) (by simp [Closes])
  rw [List.append_nil] at hhead hread
  have hbom : cs.head? ≠ some '\uFEFF' := by
    intro hbom
    obtain ⟨t, rfl⟩ := List.head?_eq_some_iff.mp hbom
    cases hread
  rw [jsonLoads, String.toList_ofList, if_neg hbom, hhead, hread]
  rfl

end Reading

section Stored

variable (lib : IpldLib)

def keyText (k : PyValue) : PyStr := (jsonKey lib k).toOption.getD ""

mutual

def jsonStored : PyValue → PyValue
  | .str s => .str s.joined
  | .ipldNode cidStr => .str cidStr
  | .list items | .tuple items => .list (jsonStoredItems items)
  | .dict items => .dict (PyValue.dictOf (jsonStoredMembers items))
  | v => v

def jsonStoredItems : List PyValue → List PyValue
  | [] => []
  | v :: vs => jsonStored v :: jsonStoredItems vs

def jsonStoredMembers : List (PyValue × PyValue) → List (PyValue × PyValue)
  | [] => []
  | (k, v) :: es => (.str (keyText lib k).joined, jsonStored v) :: jsonStoredMembers es

end

variable {lib} {parseFloat : List Char → BitVec 64}

mutual

theorem jsonText_reads (hf : FloatReads lib parseFloat) : (v : PyValue) → ∀ cs, jsonText lib v = .ok cs →
    Reads parseFloat cs (jsonStored lib v)
  | .none => by
    intro cs h
    obtain rfl := Except.ok.inj h
    exact reads_word fun rest => rfl
  | .bool b => by
    intro cs h
    obtain rfl := Except.ok.inj h
    cases b with
    | false => exact reads_word fun rest => rfl
    | true => exact reads_word fun rest => rfl
  | .int i => by
    intro cs h
    obtain ⟨s, hs, rfl⟩ := map_ok.mp h
    exact reads_int hs
  | .float bits => by
    intro cs h
    obtain ⟨s, hs, rfl⟩ := map_ok.mp h
    unfold floatStr at hs
    split at hs
    · obtain rfl := Except.ok.inj hs
      exact reads_float hf _
    · contradiction
  | .str s => by
    intro cs h
    obtain rfl := Except.ok.inj h
    exact reads_string s
  | .ipldNode s => by
    intro cs h
    obtain rfl := Except.ok.inj h
    exact reads_string (.text s)
  | .list items | .tuple items => by
    intro cs h
    obtain ⟨texts, htexts, h⟩ := bind_ok.mp h
    obtain rfl := Except.ok.inj h
    exact reads_array (jsonTexts_reads hf items texts htexts)
  | .dict items => by
    intro cs h
    obtain ⟨texts, htexts, h⟩ := bind_ok.mp h
    obtain rfl := Except.ok.inj h
    exact reads_object (jsonItems_reads hf items texts htexts)
  | .bytes _ | .number _ | .set _ | .cborTag .. | .object _ => by
    intro cs h
    cases h

theorem jsonTexts_reads (hf : FloatReads lib parseFloat) : (vs : List PyValue) → ∀ ts,
    jsonTexts lib vs = .ok ts → List.Forall₂ (Reads parseFloat) ts (jsonStoredItems lib vs)
  | [] => by
    intro ts h
    obtain rfl := Except.ok.inj h
    exact .nil
  | v :: vs => by
    intro ts h
    obtain ⟨text, htext, h⟩ := bind_ok.mp h
    obtain ⟨texts, htexts, h⟩ := bind_ok.mp h
    obtain rfl := Except.ok.inj h
    exact .cons (jsonText_reads hf v text htext) (jsonTexts_reads hf vs texts htexts)

theorem jsonItems_reads (hf : FloatReads lib parseFloat) : (es : List (PyValue × PyValue)) → ∀ ts,
    jsonItems lib es = .ok ts → List.Forall₂ (ReadsMember parseFloat) ts (jsonStoredMembers lib es)
  | [] => by
    intro ts h
    obtain rfl := Except.ok.inj h
    exact .nil
  | (k, v) :: es => by
    intro ts h
    obtain ⟨key, hkey, h⟩ := bind_ok.mp h
    obtain ⟨text, htext, h⟩ := bind_ok.mp h
    obtain ⟨texts, htexts, h⟩ := bind_ok.mp h
    obtain rfl := Except.ok.inj h
    have hname : keyText lib k = key := by simp [keyText, hkey, Except.toOption]
    refine .cons ⟨key, text, rfl, ?_, jsonText_reads hf v text htext⟩ (jsonItems_reads hf es texts htexts)
    rw [hname]

end

theorem jsonLoads_dumps (hf : FloatReads lib parseFloat) {node : PyValue} {text : String}
    (h : jsonDumps lib node = .ok text) : jsonLoads parseFloat text = .ok (jsonStored lib node) := by
  obtain ⟨cs, hcs, rfl⟩ := map_ok.mp h
  exact jsonLoads_reads (jsonText_reads hf node cs hcs)

end Stored

end IpfsLite.Ipld
