import IpfsLite.IpldNode
import IpfsLite.Lib.PrefixCode
import IpfsLite.PyJson

/-!
The JSON text of a string, and what is read of it: the string with its pairs of surrogates joined. Hence
the text is that of no other string without such pairs.
-/

namespace IpfsLite.Ipld

open CodePoint PrefixCode PyJson PyStr

section Units

theorem digitChar_inj {a b : ℕ} (ha : a < 16) (hb : b < 16) (h : Nat.digitChar a = Nat.digitChar b) :
    a = b := by
  have hall : ∀ a < 16, ∀ b < 16, Nat.digitChar a = Nat.digitChar b → a = b := by decide
  exact hall a ha b hb h

theorem hexValue_digitChar {n : ℕ} (h : n < 16) : hexValue (Nat.digitChar n) = some n := by
  have hall : ∀ n < 16, hexValue (Nat.digitChar n) = some n := by decide
  exact hall n h

def hexDigits (n : ℕ) : List Char :=
  [Nat.digitChar (n / 4096), Nat.digitChar (n / 256 % 16), Nat.digitChar (n / 16 % 16), Nat.digitChar (n % 16)]

theorem unit_eq (n : ℕ) : unit n = '\\' :: 'u' :: hexDigits n := rfl

theorem decodeUnit_hexDigits {n : ℕ} (h : n < 0x10000) (rest : List Char) :
    decodeUnit (hexDigits n ++ rest) = .ok (n, rest) := by
  have hnumber : hexNumber (Nat.digitChar (n / 4096)) (Nat.digitChar (n / 256 % 16))
      (Nat.digitChar (n / 16 % 16)) (Nat.digitChar (n % 16)) = some n := by
    simp only [hexNumber, hexValue_digitChar (show n / 4096 < 16 by omega),
      hexValue_digitChar (show n / 256 % 16 < 16 by omega), hexValue_digitChar (show n / 16 % 16 < 16 by omega),
      hexValue_digitChar (show n % 16 < 16 by omega), bind, Option.bind]
    congr 1
    omega
  simp only [hexDigits, List.cons_append, List.nil_append, decodeUnit, hnumber]

def IsHigh (unit : ℕ) : Prop := 0xD800 ≤ unit ∧ unit ≤ 0xDBFF

def IsLow (unit : ℕ) : Prop := 0xDC00 ≤ unit ∧ unit ≤ 0xDFFF

theorem toNat_valid (c : Char) : c.toNat < 0xD800 ∨ 0xDFFF < c.toNat ∧ c.toNat < 0x110000 := c.valid

theorem chr_toNat (c : Char) : chr c.toNat = .char c := by
  have hvalid := toNat_valid c
  rw [chr, dif_neg (by omega), Char.ofNat_toNat]

theorem chr_surrogate (n : Fin 2048) : chr (0xD800 + n.val) = .surrogate n := by
  have hrange : 0xD800 ≤ 0xD800 + n.val ∧ 0xD800 + n.val ≤ 0xDFFF := by omega
  rw [chr, dif_pos hrange]
  exact congrArg CodePoint.surrogate (Fin.ext (Nat.add_sub_cancel_left 0xD800 n.val))

theorem chr_eq_surrogate {unit : ℕ} {n : Fin 2048} (h : chr unit = .surrogate n) : unit = 0xD800 + n.val := by
  unfold chr at h
  split_ifs at h with hrange
  have hn := CodePoint.surrogate.inj h
  rw [Fin.ext_iff] at hn
  dsimp only at hn
  omega

def NoLow (cs : List Char) : Prop :=
  ∀ t, cs = '\\' :: 'u' :: t → ∃ low rest, decodeUnit t = .ok (low, rest) ∧ ¬IsLow low

theorem decodeUnits_single {unit : ℕ} {cs rest : List Char} (h : decodeUnit cs = .ok (unit, rest))
    (hsingle : IsHigh unit → NoLow rest) : decodeUnits cs = .ok (chr unit, rest) := by
  rw [decodeUnits, h]
  simp only [bind, Except.bind]
  split
  · next t =>
    split_ifs with hhigh
    · obtain ⟨low, after, hlow, hnot⟩ := hsingle hhigh t rfl
      simp only [hlow]
      exact if_neg hnot
    · rfl
  · rfl

theorem decodeUnits_pair {high low : ℕ} {cs ds rest : List Char}
    (h : decodeUnit cs = .ok (high, '\\' :: 'u' :: ds)) (hhigh : IsHigh high)
    (h' : decodeUnit ds = .ok (low, rest)) (hlow : IsLow low) :
    decodeUnits cs = .ok (chr (0x10000 + (high - 0xD800) * 1024 + (low - 0xDC00)), rest) := by
  rw [decodeUnits, h]
  simp only [bind, Except.bind, h']
  exact (if_pos hhigh).trans (if_pos hlow)

theorem decodeUnits_surrogate {cs rest : List Char} {n : Fin 2048} (h : decodeUnits cs = .ok (.surrogate n, rest)) :
    decodeUnit cs = .ok (0xD800 + n.val, rest) ∧ (n.val < 1024 → NoLow rest) := by
  obtain ⟨⟨unit, after⟩, hunit, h⟩ := bind_ok.mp h
  dsimp only at h
  split at h
  · next t =>
    split_ifs at h with hhigh
    · obtain ⟨⟨low, after⟩, hlow, h⟩ := bind_ok.mp h
      dsimp only at h
      split_ifs at h with hpair
      · obtain ⟨hchr, -⟩ := Prod.mk.inj (Except.ok.inj h)
        have hcode := chr_eq_surrogate hchr
        omega
      · obtain ⟨hchr, rfl⟩ := Prod.mk.inj (Except.ok.inj h)
        obtain rfl := chr_eq_surrogate hchr
        refine ⟨hunit, fun _ u hu => ?_⟩
        obtain rfl : t = u := by simpa using hu
        exact ⟨low, after, hlow, hpair⟩
    · obtain ⟨hchr, rfl⟩ := Prod.mk.inj (Except.ok.inj h)
      obtain rfl := chr_eq_surrogate hchr
      exact ⟨hunit, fun hsmall => absurd ⟨by omega, by omega⟩ hhigh⟩
  · next hother =>
    obtain ⟨hchr, rfl⟩ := Prod.mk.inj (Except.ok.inj h)
    obtain rfl := chr_eq_surrogate hchr
    exact ⟨hunit, fun _ t ht => absurd ht (hother t)⟩

end Units

section Escapes

theorem shortEscape_mem {c e : Char} (h : shortEscape c = some e) :
    (c, e) ∈ [('"', '"'), ('\\', '\\'), ('\n', 'n'), ('\r', 'r'), ('\t', 't'), ('\x0c', 'f'),
      ('\x08', 'b')] := by
  unfold shortEscape at h
  split at h
  all_goals first
    | (obtain rfl := Option.some.inj h; decide)
    | exact absurd h (by simp)

theorem escape_cases (c : Char) :
    (∃ e, shortEscape c = some e ∧ e ≠ 'u' ∧ escape (.char c) = ['\\', e]) ∨
      (' ' ≤ c ∧ c ≠ '\\' ∧ c ≠ '"' ∧ escape (.char c) = [c]) ∨
      escape (.char c) = (codeUnits c.toNat).flatMap unit := by
  unfold escape
  dsimp only
  split
  next e he =>
    refine .inl ⟨e, he, ?_, rfl⟩
    rintro rfl
    have := shortEscape_mem he
    simp at this
  next he =>
    split
    · next hprint => refine .inr (.inl ⟨hprint.1, ?_, ?_, rfl⟩) <;> rintro rfl <;> exact absurd he (by decide)
    · exact .inr (.inr rfl)

theorem escape_beyond {c : Char} (h : ¬c.toNat < 0x10000) : escape (.char c) = (codeUnits c.toNat).flatMap unit := by
  have hshort : shortEscape c = none := by
    cases he : shortEscape c with
    | none => rfl
    | some e =>
      have hmem := shortEscape_mem he
      simp only [List.mem_cons, Prod.mk.injEq, List.not_mem_nil, or_false] at hmem
      rcases hmem with ⟨rfl, -⟩ | ⟨rfl, -⟩ | ⟨rfl, -⟩ | ⟨rfl, -⟩ | ⟨rfl, -⟩ | ⟨rfl, -⟩ | ⟨rfl, -⟩ <;>
        exact absurd (by decide) h
  have hprint : ¬(' ' ≤ c ∧ c ≤ '~') := by
    rintro ⟨-, hle⟩
    have hcode : c.toNat ≤ '~'.toNat := hle
    have htilde : '~'.toNat = 126 := rfl
    omega
  simp only [escape, hshort, if_neg hprint]

theorem codeUnits_plane {c : Char} (h : c.toNat < 0x10000) :
    (codeUnits c.toNat).flatMap unit = unit c.toNat := by
  rw [codeUnits, if_pos h]
  exact List.append_nil _

theorem codeUnits_beyond {c : Char} (h : ¬c.toNat < 0x10000) : (codeUnits c.toNat).flatMap unit =
    unit (0xD800 + (c.toNat - 0x10000) / 1024) ++ unit (0xDC00 + (c.toNat - 0x10000) % 1024) := by
  rw [codeUnits, if_neg h]
  simp

theorem escape_head (a : CodePoint) : ∃ c t, escape a = c :: t ∧ c ≠ '"' := by
  cases a with
  | surrogate n => exact ⟨'\\', _, rfl, by decide⟩
  | char c =>
    obtain ⟨e, -, -, he⟩ | ⟨-, -, hc, he⟩ | he := escape_cases c
    · exact ⟨'\\', _, he, by decide⟩
    · exact ⟨c, _, he, hc⟩
    · by_cases hplane : c.toNat < 0x10000
      · rw [codeUnits_plane hplane] at he
        exact ⟨'\\', _, he, by decide⟩
      · rw [codeUnits_beyond hplane] at he
        exact ⟨'\\', _, he, by decide⟩

theorem escape_pair {a b : CodePoint} {c : Char} (h : pair? a b = some c) : escape (.char c) = escape a ++ escape b := by
  obtain ⟨high, low, rfl, rfl, hhigh, hlow, hc⟩ := pair?_eq_some h
  have hrange : 0x10000 + high.val * 1024 + (low.val - 1024) < 0x110000 := by omega
  have hcode : c.toNat = 0x10000 + high.val * 1024 + (low.val - 1024) := by
    rw [hc, Char.ofNat, dif_pos (.inr ⟨by omega, hrange⟩)]
    rfl
  have hbeyond : ¬c.toNat < 0x10000 := by omega
  have hhalves : (c.toNat - 0x10000) / 1024 = high.val ∧ 0xDC00 + (c.toNat - 0x10000) % 1024 = 0xD800 + low.val := by
    omega
  rw [escape_beyond hbeyond, codeUnits_beyond hbeyond, hhalves.1, hhalves.2, escape, escape]

theorem escapes_joinPairs (s : List CodePoint) : (joinPairs s).flatMap escape = s.flatMap escape := by
  fun_induction joinPairs s with
  | case1 a b cs c hpair ih => rw [List.flatMap_cons, List.flatMap_cons, List.flatMap_cons, ih, escape_pair hpair,
      List.append_assoc]
  | case2 a b cs hpair ih => rw [List.flatMap_cons, List.flatMap_cons, ih]
  | case3 cs hshort => rfl

theorem encode_joined (s : PyStr) : encodeBasestringAscii s.joined = encodeBasestringAscii s := by
  rw [encodeBasestringAscii, codePoints_joined, escapes_joinPairs, encodeBasestringAscii]

end Escapes

section Scanning

theorem scanChar_plain {c : Char} (hquote : c ≠ '"') (hslash : c ≠ '\\') (hprint : ¬c < ' ')
    (cs : List Char) : scanChar (c :: cs) = .ok (some (.char c), cs) := by
  rw [scanChar, if_neg hprint]
  · exact hquote
  · exact hslash

theorem scanChar_unit {n : ℕ} {cs rest : List Char} {a : CodePoint} (h : decodeUnits (hexDigits n ++ cs) = .ok (a, rest)) :
    scanChar (unit n ++ cs) = .ok (some a, rest) := by
  change (decodeUnits (hexDigits n ++ cs)).map (fun p => (some p.1, p.2)) = _
  rw [h]
  rfl

theorem scanChar_char (c : Char) (rest : List Char) :
    scanChar (escape (.char c) ++ rest) = .ok (some (.char c), rest) := by
  have hvalid := toNat_valid c
  obtain ⟨e, he, -, htext⟩ | ⟨hprint, hslash, hquote, htext⟩ | htext := escape_cases c
  · have hmem := shortEscape_mem he
    simp only [List.mem_cons, Prod.mk.injEq, List.not_mem_nil, or_false] at hmem
    rw [htext]
    rcases hmem with ⟨rfl, rfl⟩ | ⟨rfl, rfl⟩ | ⟨rfl, rfl⟩ | ⟨rfl, rfl⟩ | ⟨rfl, rfl⟩ | ⟨rfl, rfl⟩ | ⟨rfl, rfl⟩ <;>
      rfl
  · rw [htext]
    exact scanChar_plain hquote hslash (Char.not_lt.mpr hprint) rest
  · by_cases hplane : c.toNat < 0x10000
    · rw [htext, codeUnits_plane hplane]
      apply scanChar_unit
      rw [decodeUnits_single (decodeUnit_hexDigits hplane rest) fun h => absurd h (by unfold IsHigh; omega), chr_toNat]
    · have hhigh : IsHigh (0xD800 + (c.toNat - 0x10000) / 1024) := by
        unfold IsHigh
        omega
      have hlow : IsLow (0xDC00 + (c.toNat - 0x10000) % 1024) := by
        unfold IsLow
        omega
      have hcode : 0x10000 + (0xD800 + (c.toNat - 0x10000) / 1024 - 0xD800) * 1024 +
          (0xDC00 + (c.toNat - 0x10000) % 1024 - 0xDC00) = c.toNat := by omega
      rw [htext, codeUnits_beyond hplane, List.append_assoc]
      apply scanChar_unit
      have hfirst := decodeUnit_hexDigits (show 0xD800 + (c.toNat - 0x10000) / 1024 < 0x10000 by omega)
        (unit (0xDC00 + (c.toNat - 0x10000) % 1024) ++ rest)
      rw [decodeUnits_pair hfirst hhigh (decodeUnit_hexDigits (by omega) rest) hlow, hcode, chr_toNat]

theorem scanChar_surrogate {n : Fin 2048} {rest : List Char} (h : n.val < 1024 → NoLow rest) :
    scanChar (escape (.surrogate n) ++ rest) = .ok (some (.surrogate n), rest) := by
  rw [escape]
  apply scanChar_unit
  rw [decodeUnits_single (decodeUnit_hexDigits (by omega) rest) fun hhigh => h (by unfold IsHigh at hhigh; omega),
    chr_surrogate]

theorem noLow_cons {c : Char} (h : c ≠ '\\') (cs : List Char) : NoLow (c :: cs) := by
  intro t ht
  exact absurd (List.cons.inj ht).1 h

theorem noLow_unit {n : ℕ} (hn : n < 0x10000) (h : ¬IsLow n) (rest : List Char) : NoLow (unit n ++ rest) := by
  intro t ht
  obtain rfl : hexDigits n ++ rest = t := by simpa [unit_eq] using ht
  exact ⟨n, rest, decodeUnit_hexDigits hn rest, h⟩

theorem noLow_escape {b : CodePoint} (h : ∀ n, b = .surrogate n → n.val < 1024) (rest : List Char) :
    NoLow (escape b ++ rest) := by
  cases b with
  | surrogate n =>
    have hn := h n rfl
    exact noLow_unit (by omega) (by unfold IsLow; omega) rest
  | char c =>
    have hvalid := toNat_valid c
    obtain ⟨e, -, hu, htext⟩ | ⟨-, hslash, -, htext⟩ | htext := escape_cases c
    · rw [htext]
      intro t ht
      simp only [List.cons_append, List.nil_append, List.cons.injEq, true_and] at ht
      exact absurd ht.1 hu
    · rw [htext]
      exact noLow_cons hslash rest
    · by_cases hplane : c.toNat < 0x10000
      · rw [htext, codeUnits_plane hplane]
        exact noLow_unit hplane (by unfold IsLow; omega) rest
      · rw [htext, codeUnits_beyond hplane, List.append_assoc]
        exact noLow_unit (by omega) (by unfold IsLow; omega) _

theorem noLow_next {n : Fin 2048} {b : CodePoint} (hn : n.val < 1024) (h : pair? (.surrogate n) b = none)
    (rest : List Char) : NoLow (escape b ++ rest) := by
  apply noLow_escape
  rintro m rfl
  by_contra hm
  rw [pair?, if_pos ⟨hn, by omega⟩] at h
  contradiction

theorem scanChar_escape {a : CodePoint} {rest : List Char} (h : ∀ n, a = .surrogate n → n.val < 1024 → NoLow rest) :
    scanChar (escape a ++ rest) = .ok (some a, rest) := by
  cases a with
  | char c => exact scanChar_char c rest
  | surrogate n => exact scanChar_surrogate (h n rfl)

theorem scanChars_cons {a : CodePoint} {as : List CodePoint} {cs after rest : List Char} {n : ℕ}
    (h : scanChar cs = .ok (some a, after)) (hrest : scanChars n after = .ok (as, rest)) :
    scanChars (n + 1) cs = .ok (a :: as, rest) := by
  rw [scanChars, h]
  simp only [bind, Except.bind, hrest]
  rfl

theorem scanChars_escapes (s : List CodePoint) (rest : List Char) : ∀ n, s.length < n →
    scanChars n (s.flatMap escape ++ '"' :: rest) = .ok (joinPairs s, rest) := by
  fun_induction joinPairs s with
  | case1 a b cs c hpair ih =>
    intro n hn
    obtain ⟨n, rfl⟩ := Nat.exists_eq_succ_of_ne_zero (show n ≠ 0 by omega)
    simp only [List.length_cons] at hn
    have htext : (a :: b :: cs).flatMap escape ++ '"' :: rest =
        escape (.char c) ++ (cs.flatMap escape ++ '"' :: rest) := by simp [escape_pair hpair]
    rw [htext]
    exact scanChars_cons (scanChar_char c _) (ih n (by omega))
  | case2 a b cs hpair ih =>
    intro n hn
    obtain ⟨n, rfl⟩ := Nat.exists_eq_succ_of_ne_zero (show n ≠ 0 by omega)
    have hnext : ∀ m, a = .surrogate m → m.val < 1024 → NoLow ((b :: cs).flatMap escape ++ '"' :: rest) := by
      rintro m rfl hm
      rw [List.flatMap_cons, List.append_assoc]
      exact noLow_next hm hpair _
    rw [List.flatMap_cons, List.append_assoc]
    exact scanChars_cons (scanChar_escape hnext) (ih n (by simpa using hn))
  | case3 cs hshort =>
    intro n hn
    obtain ⟨n, rfl⟩ := Nat.exists_eq_succ_of_ne_zero (show n ≠ 0 by omega)
    rcases cs with _ | ⟨a, _ | ⟨b, cs⟩⟩
    · rfl
    · obtain ⟨n, rfl⟩ := Nat.exists_eq_succ_of_ne_zero (show n ≠ 0 by simp at hn; omega)
      rw [List.flatMap_cons, List.flatMap_nil, List.append_nil]
      exact scanChars_cons (scanChar_escape fun _ _ _ => noLow_cons (by decide) rest) rfl
    · exact absurd rfl (hshort a b cs)

theorem length_escapes (s : List CodePoint) : s.length ≤ (s.flatMap escape).length := by
  induction s with
  | nil => rfl
  | cons a s ih =>
    obtain ⟨c, t, htext, -⟩ := escape_head a
    rw [List.flatMap_cons, List.length_append, List.length_cons, htext, List.length_cons]
    omega

theorem scanString_text (s : PyStr) (rest : List Char) :
    scanString (s.codePoints.flatMap escape ++ '"' :: rest) = .ok (s.joined, rest) := by
  have hfuel : s.codePoints.length < (s.codePoints.flatMap escape ++ '"' :: rest).length := by
    have h := length_escapes s.codePoints
    rw [List.length_append, List.length_cons]
    omega
  rw [scanString, scanChars_escapes _ _ _ hfuel, joined_eq]
  rfl

theorem string_reads (s : JsonStr) : ReadsOff Free (fun s : JsonStr => encodeBasestringAscii s.1) s := by
  intro t r u _ _ h
  have hscan (s : JsonStr) (r : List Char) :
      scanString (s.1.codePoints.flatMap escape ++ '"' :: r) = .ok (s.1, r) := by
    rw [scanString_text, joined_eq_iff.mpr s.2]
  have hs := hscan s r
  simp only [encodeBasestringAscii, List.cons_append, List.append_assoc, List.nil_append] at h
  rw [(List.cons.inj h).2, hscan t u] at hs
  obtain ⟨htext, hrest⟩ := Prod.mk.inj (Except.ok.inj hs)
  exact ⟨Subtype.ext htext.symm, hrest.symm⟩

theorem scanChar_some_surrogate {cs rest : List Char} {n : Fin 2048}
    (h : scanChar cs = .ok (some (.surrogate n), rest)) :
    ∃ t, cs = '\\' :: 'u' :: t ∧ decodeUnits t = .ok (.surrogate n, rest) := by
  unfold scanChar at h
  split at h
  · contradiction
  · cases h
  · next cs =>
    obtain ⟨⟨a, after⟩, hescape, h⟩ := map_ok.mp h
    obtain ⟨ha, rfl⟩ := Prod.mk.inj h
    obtain rfl : a = .surrogate n := Option.some.inj ha
    unfold scanEscape at hescape
    split at hescape
    · contradiction
    · next t => exact ⟨t, rfl, hescape⟩
    · split at hescape
      · cases hescape
      · contradiction
  · split_ifs at h
    cases h

theorem scanChars_head {n : ℕ} {cs rest : List Char} {b : CodePoint} {bs : List CodePoint}
    (h : scanChars n cs = .ok (b :: bs, rest)) : ∃ after, scanChar cs = .ok (some b, after) := by
  cases n with
  | zero => cases h
  | succ n =>
    rw [scanChars] at h
    obtain ⟨⟨c, after⟩, hc, h⟩ := bind_ok.mp h
    cases c with
    | none => cases h
    | some c =>
      obtain ⟨⟨cs, _⟩, -, h⟩ := map_ok.mp h
      obtain ⟨hhead, -⟩ := Prod.mk.inj h
      obtain rfl : c = b := (List.cons.inj hhead).1
      exact ⟨after, hc⟩

theorem scanChar_unpaired {a b : CodePoint} {cs after rest : List Char} (ha : scanChar cs = .ok (some a, after))
    (hb : scanChar after = .ok (some b, rest)) : pair? a b = none := by
  cases hpair : pair? a b with
  | none => rfl
  | some c =>
    obtain ⟨high, low, rfl, rfl, hhigh, hlow, -⟩ := pair?_eq_some hpair
    obtain ⟨t, rfl, hfirst⟩ := scanChar_some_surrogate ha
    obtain ⟨u, rfl, hsecond⟩ := scanChar_some_surrogate hb
    obtain ⟨unit, r, hunit, hnot⟩ := (decodeUnits_surrogate hfirst).2 hhigh u rfl
    have hlowUnit := (decodeUnits_surrogate hsecond).1
    rw [hunit] at hlowUnit
    obtain rfl := (Prod.mk.inj (Except.ok.inj hlowUnit)).1
    exact absurd ⟨by omega, by omega⟩ hnot

theorem scanChars_unpaired (n : ℕ) : ∀ cs s rest, scanChars n cs = .ok (s, rest) → CodePoint.paired s = false := by
  induction n with
  | zero =>
    intro cs s rest h
    cases h
  | succ n ih =>
    intro cs s rest h
    rw [scanChars] at h
    obtain ⟨⟨a, after⟩, ha, h⟩ := bind_ok.mp h
    cases a with
    | none =>
      obtain ⟨rfl, -⟩ := Prod.mk.inj (Except.ok.inj h)
      rfl
    | some a =>
      obtain ⟨⟨as, after'⟩, has, h⟩ := map_ok.mp h
      obtain ⟨rfl, rfl⟩ := Prod.mk.inj h
      have hrest := ih _ _ _ has
      cases as with
      | nil => rfl
      | cons b as =>
        obtain ⟨next, hb⟩ := scanChars_head has
        simpa [CodePoint.paired, scanChar_unpaired ha hb] using hrest

/-- No string that `json.loads` returns has a pair of surrogates. -/
theorem scanString_unpaired {cs rest : List Char} {s : PyStr} (h : scanString cs = .ok (s, rest)) :
    s.paired = false := by
  obtain ⟨⟨as, after⟩, has, h⟩ := map_ok.mp h
  obtain ⟨rfl, -⟩ := Prod.mk.inj h
  rw [paired_eq, codePoints_ofCodePoints]
  exact scanChars_unpaired _ _ _ _ has

end Scanning

end IpfsLite.Ipld
