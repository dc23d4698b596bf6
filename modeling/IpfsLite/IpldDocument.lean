import IpfsLite.JsonStrings

/-!
What a node is for a codec: a document whose maps are lists of items. Its text, or its bytes, are
those of no other document.
-/

namespace IpfsLite.Ipld

open Ipns PyInt PrefixCode

inductive JsonDoc
  | null
  | bool (b : Bool)
  | int (i : ℤ)
  | float (x : FiniteFloat)
  | str (s : JsonStr)
  | array (items : List JsonDoc)
  | object (items : List (JsonStr × JsonDoc))

inductive CborDoc
  | null
  | bool (b : Bool)
  | int (i : ℤ)
  | float (bits : BitVec 64)
  | str (s : String)
  | bytes (b : Bytes)
  | array (items : List CborDoc)
  | map (items : List (CborDoc × CborDoc))

section Documents

variable (lib : IpldLib)

mutual

def jsonDoc : PyValue → Option JsonDoc
  | .none => some .null
  | .bool b => some (.bool b)
  | .int i => if (str i).isOk then some (.int i) else none
  | .float bits => if h : isFinite bits then some (.float ⟨bits, h⟩) else none
  | .str s => some (.str s.toJson)
  | .ipldNode s => some (.str (PyStr.text s).toJson)
  | .list items | .tuple items => (jsonDocs items).map .array
  | .dict items => (jsonMembers items).map .object
  | _ => none

def jsonDocs : List PyValue → Option (List JsonDoc)
  | [] => some []
  | v :: vs => (jsonDoc v).bind fun d => (jsonDocs vs).map (d :: ·)

def jsonMembers : List (PyValue × PyValue) → Option (List (JsonStr × JsonDoc))
  | [] => some []
  | (k, v) :: es => (jsonKey lib k).toOption.bind fun key =>
    (jsonDoc v).bind fun d => (jsonMembers es).map ((key.toJson, d) :: ·)

end

/-- `cbor2` writes one bit pattern for all that are not a number. -/
def cborFloat (bits : BitVec 64) : BitVec 64 :=
  if ¬isFinite bits ∧ bits.toNat % 2 ^ 52 ≠ 0 then 0x7FF8000000000000 else bits

mutual

def cborDoc : PyValue → Option CborDoc
  | .none => some .null
  | .bool b => some (.bool b)
  | .int i => some (.int i)
  | .float bits => some (.float (cborFloat bits))
  | .str (.text s) => some (.str s)
  | .bytes b => some (.bytes b)
  | .list items | .tuple items => (cborDocs items).map .array
  | .dict items => (cborMembers items).map .map
  | _ => none

def cborDocs : List PyValue → Option (List CborDoc)
  | [] => some []
  | v :: vs => (cborDoc v).bind fun d => (cborDocs vs).map (d :: ·)

def cborMembers : List (PyValue × PyValue) → Option (List (CborDoc × CborDoc))
  | [] => some []
  | (k, v) :: es => (cborDoc k).bind fun key =>
    (cborDoc v).bind fun d => (cborMembers es).map ((key, d) :: ·)

end

def document (codec : String) (node : PyValue) : Option (JsonDoc ⊕ CborDoc) :=
  if (checkNan node).isOk then
    if codec = "dag-json" then (jsonDoc lib node).map .inl
    else (cborDoc (convertIpldNodes node)).map .inr
  else none

end Documents

section Text

variable (lib : IpldLib)

mutual

def JsonDoc.text : JsonDoc → List Char
  | .null => "null".toList
  | .bool b => (boolStr b).toList
  | .int i => (toString i).toList
  | .float x => (lib.floatRepr x).toList
  | .str s => encodeBasestringAscii s.1
  | .array items => '[' :: ([','].intercalate (JsonDoc.texts items) ++ [']'])
  | .object items => '{' :: ([','].intercalate (JsonDoc.members items) ++ ['}'])

def JsonDoc.texts : List JsonDoc → List (List Char)
  | [] => []
  | d :: ds => JsonDoc.text d :: JsonDoc.texts ds

def JsonDoc.members : List (JsonStr × JsonDoc) → List (List Char)
  | [] => []
  | (k, d) :: es => (encodeBasestringAscii k.1 ++ ':' :: JsonDoc.text d) :: JsonDoc.members es

end

theorem texts_eq_map (ds : List JsonDoc) : JsonDoc.texts lib ds = ds.map (JsonDoc.text lib) := by
  induction ds with
  | nil => rfl
  | cons d ds ih => rw [JsonDoc.texts, ih, List.map_cons]

def member (e : JsonStr × JsonDoc) : List Char := encodeBasestringAscii e.1.1 ++ ':' :: e.2.text lib

theorem members_eq_map (es : List (JsonStr × JsonDoc)) : JsonDoc.members lib es = es.map (member lib) := by
  induction es with
  | nil => rfl
  | cons e es ih => rw [JsonDoc.members, ih, List.map_cons, member]

theorem toOption_bind {ε α β : Type} (x : Except ε α) (f : α → Except ε β) :
    (x.bind f).toOption = x.toOption.bind fun a => (f a).toOption := by
  cases x <;> rfl

theorem toOption_map {ε α β : Type} (x : Except ε α) (f : α → β) :
    (x.map f).toOption = x.toOption.map f := by
  cases x <;> rfl

mutual

theorem jsonText_doc : (v : PyValue) →
    (jsonText lib v).toOption = (jsonDoc lib v).map (JsonDoc.text lib)
  | .none => rfl
  | .bool b => rfl
  | .int i => by
    simp only [jsonText, jsonDoc, str]
    split <;> rfl
  | .float bits => by
    simp only [jsonText, jsonDoc, floatStr]
    split <;> rfl
  | .str s => by
    have h := encode_joined s
    exact congrArg some h.symm
  | .ipldNode s => rfl
  | .list items | .tuple items => by
    have h := jsonTexts_docs items
    simp only [jsonText, jsonDoc, bind, toOption_bind, h, Option.map_map]
    cases jsonDocs lib items <;> rfl
  | .dict items => by
    have h := jsonItems_members items
    simp only [jsonText, jsonDoc, bind, toOption_bind, h, Option.map_map]
    cases jsonMembers lib items <;> rfl
  | .bytes b | .number q | .set items | .cborTag tag value | .object type => rfl

theorem jsonTexts_docs : (vs : List PyValue) →
    (jsonTexts lib vs).toOption = (jsonDocs lib vs).map (JsonDoc.texts lib)
  | [] => rfl
  | v :: vs => by
    have hv := jsonText_doc v
    have hvs := jsonTexts_docs vs
    simp only [jsonTexts, jsonDocs, bind, toOption_bind, hv, hvs]
    cases jsonDoc lib v <;> cases jsonDocs lib vs <;> rfl

theorem jsonItems_members : (es : List (PyValue × PyValue)) →
    (jsonItems lib es).toOption = (jsonMembers lib es).map (JsonDoc.members lib)
  | [] => rfl
  | (k, v) :: es => by
    have hv := jsonText_doc v
    have hes := jsonItems_members es
    simp only [jsonItems, jsonMembers, bind, toOption_bind, hv, hes]
    cases jsonKey lib k with
    | error e => rfl
    | ok key =>
      have hkey : encodeBasestringAscii key.toJson.1 = encodeBasestringAscii key := encode_joined key
      cases jsonDoc lib v with
      | none => rfl
      | some d =>
        cases jsonMembers lib es with
        | none => rfl
        | some members => simp [Except.toOption, JsonDoc.members, hkey]

end

end Text

section Values

/-- The `repr` of a float reads back as that float and is not the numeral of an integer. -/
structure FloatRepr (lib : IpldLib) : Prop where
  injective : Function.Injective lib.floatRepr
  chars : ∀ x, ∀ c ∈ (lib.floatRepr x).toList, c.isDigit ∨ c ∈ ['.', 'e', '+', '-']
  notInt : ∀ x, ∃ c ∈ (lib.floatRepr x).toList, c ∈ ['.', 'e']

inductive Kind
  | atom
  | str
  | array
  | object
  | mark
deriving DecidableEq

def JsonDoc.kind : JsonDoc → Kind
  | .str _ => .str
  | .array _ => .array
  | .object _ => .object
  | _ => .atom

def kindOf : Char → Kind
  | '"' => .str
  | '[' => .array
  | '{' => .object
  | ',' | ':' | ']' | '}' => .mark
  | _ => .atom

def Marked (r : List Char) : Prop := ∀ c ∈ r.head?, kindOf c = .mark

variable {lib : IpldLib}

theorem intText_chars (i : ℤ) : ∀ c ∈ (toString i).toList, c.isDigit ∨ c = '-' := by
  intro c hc
  cases i with
  | ofNat n =>
    rw [PyInt.ofNat_toList] at hc
    exact .inl (PyInt.toDigits_isDigit n c hc)
  | negSucc n =>
    rw [PyInt.negSucc_toList] at hc
    rcases List.mem_cons.mp hc with rfl | hc
    · exact .inr rfl
    · exact .inl (PyInt.toDigits_isDigit _ c hc)

theorem natText_injective {n m : ℕ} (h : n.repr = m.repr) : n = m := by
  have hd := congrArg String.toList h
  rw [Nat.toList_repr, Nat.toList_repr] at hd
  rw [← Nat.ofDigitChars_ten_toDigits (n := n), hd, Nat.ofDigitChars_ten_toDigits]

theorem intText_injective {i j : ℤ} (h : toString i = toString j) : i = j := by
  have apart (n m : ℕ) : n.repr ≠ "-" ++ m.repr := by
    intro he
    have hm : '-' ∈ n.repr.toList := by simp [he]
    rw [Nat.toList_repr] at hm
    exact absurd (PyInt.toDigits_isDigit n '-' hm) (by decide)
  cases i with
  | ofNat n =>
    cases j with
    | ofNat m => rw [natText_injective (n := n) (m := m) h]
    | negSucc m => exact absurd h (apart n (m + 1))
  | negSucc n =>
    cases j with
    | ofNat m => exact absurd h.symm (apart m (n + 1))
    | negSucc m =>
      have hs : "-" ++ (n + 1).repr = "-" ++ (m + 1).repr := h
      have hn : (n + 1).repr = (m + 1).repr := by
        apply String.toList_inj.mp
        simpa using congrArg String.toList hs
      rw [Nat.succ.inj (natText_injective hn)]

theorem kindOf_digit {c : Char} (h : c.isDigit ∨ c ∈ ['.', 'e', '+', '-']) : kindOf c = .atom := by
  unfold kindOf
  split <;> first | rfl | (revert h; decide)

theorem atom_chars (hf : FloatRepr lib) {d : JsonDoc} (hd : d.kind = .atom) :
    ∀ c ∈ d.text lib, kindOf c = .atom := by
  cases d with
  | null =>
    change ∀ c ∈ "null".toList, kindOf c = .atom
    simp [kindOf]
  | bool b =>
    change ∀ c ∈ (boolStr b).toList, kindOf c = .atom
    cases b <;> simp [boolStr, kindOf]
  | int i =>
    intro c hc
    apply kindOf_digit
    rcases intText_chars i c hc with h | rfl
    · exact .inl h
    · exact .inr (by decide)
  | float x => exact fun c hc => kindOf_digit (hf.chars x c hc)
  | str s => exact absurd hd (by simp [JsonDoc.kind])
  | array items => exact absurd hd (by simp [JsonDoc.kind])
  | object items => exact absurd hd (by simp [JsonDoc.kind])

theorem not_letter {c : Char} (h : c.isDigit ∨ c ∈ ['.', 'e', '+', '-']) : c ∉ ['l', 'u'] := by
  intro hc
  simp only [List.mem_cons, List.not_mem_nil, or_false] at hc
  rcases hc with rfl | rfl <;> (revert h; decide)

theorem int_letter (i : ℤ) : ∀ c ∈ (toString i).toList, c ∉ ['l', 'u'] := by
  intro c hc
  apply not_letter
  rcases intText_chars i c hc with h | rfl
  · exact .inl h
  · exact .inr (by decide)

theorem bool_letter (b : Bool) : ∃ c ∈ (boolStr b).toList, c ∈ ['l', 'u'] := by
  cases b with
  | false => exact ⟨'l', by simp [boolStr], by simp⟩
  | true => exact ⟨'u', by simp [boolStr], by simp⟩

theorem atom_injective (hf : FloatRepr lib) {d e : JsonDoc} (hd : d.kind = .atom) (he : e.kind = .atom)
    (h : d.text lib = e.text lib) : d = e := by
  have float_letter (x : FiniteFloat) : ∀ c ∈ (lib.floatRepr x).toList, c ∉ ['l', 'u'] :=
    fun c hc => not_letter (hf.chars x c hc)
  have apart {t u : List Char} (ht : ∃ c ∈ t, c ∈ ['l', 'u']) (hu : ∀ c ∈ u, c ∉ ['l', 'u']) : t ≠ u := by
    rintro rfl
    obtain ⟨c, hc, hletter⟩ := ht
    exact hu c hc hletter
  have int_float (i : ℤ) (x : FiniteFloat) : (toString i).toList ≠ (lib.floatRepr x).toList := by
    intro hix
    obtain ⟨c, hc, hmark⟩ := hf.notInt x
    rw [← hix] at hc
    rcases intText_chars i c hc with hdigit | rfl
    · simp only [List.mem_cons, List.not_mem_nil, or_false] at hmark
      rcases hmark with rfl | rfl <;> exact absurd hdigit (by decide)
    · exact absurd hmark (by decide)
  have null_letter : ∃ c ∈ "null".toList, c ∈ ['l', 'u'] := ⟨'l', by simp, by simp⟩
  cases d with
  | null =>
    cases e with
    | null => rfl
    | bool b =>
      have hb : "null".toList ≠ (boolStr b).toList := by cases b <;> decide
      exact absurd h hb
    | int i => exact absurd h (apart null_letter (int_letter i))
    | float x => exact absurd h (apart null_letter (float_letter x))
    | _ => exact absurd he (by simp [JsonDoc.kind])
  | bool b =>
    cases e with
    | null =>
      have hb : (boolStr b).toList ≠ "null".toList := by cases b <;> decide
      exact absurd h hb
    | bool b' =>
      have hb : ∀ b b', (boolStr b).toList = (boolStr b').toList → b = b' := by decide
      rw [hb b b' h]
    | int i => exact absurd h (apart (bool_letter b) (int_letter i))
    | float x => exact absurd h (apart (bool_letter b) (float_letter x))
    | _ => exact absurd he (by simp [JsonDoc.kind])
  | int i =>
    cases e with
    | null => exact absurd h.symm (apart null_letter (int_letter i))
    | bool b => exact absurd h.symm (apart (bool_letter b) (int_letter i))
    | int j => rw [intText_injective (String.toList_inj.mp h)]
    | float x => exact absurd h (int_float i x)
    | _ => exact absurd he (by simp [JsonDoc.kind])
  | float x =>
    cases e with
    | null => exact absurd h.symm (apart null_letter (float_letter x))
    | bool b => exact absurd h.symm (apart (bool_letter b) (float_letter x))
    | int i => exact absurd h.symm (int_float i x)
    | float y => rw [hf.injective (String.toList_inj.mp h)]
    | _ => exact absurd he (by simp [JsonDoc.kind])
  | _ => exact absurd hd (by simp [JsonDoc.kind])

theorem atom_ne_nil (hf : FloatRepr lib) {d : JsonDoc} (hd : d.kind = .atom) : d.text lib ≠ [] := by
  cases d with
  | null => exact List.cons_ne_nil _ _
  | bool b => cases b <;> exact List.cons_ne_nil _ _
  | int i =>
    cases i with
    | ofNat n =>
      change n.repr.toList ≠ []
      simp
    | negSucc n =>
      change ("-" ++ (n + 1).repr).toList ≠ []
      simp
  | float x =>
    obtain ⟨c, hc, -⟩ := hf.notInt x
    exact List.ne_nil_of_mem hc
  | str s => exact absurd hd (by simp [JsonDoc.kind])
  | array items => exact absurd hd (by simp [JsonDoc.kind])
  | object items => exact absurd hd (by simp [JsonDoc.kind])

theorem text_head (hf : FloatRepr lib) (d : JsonDoc) : ∃ c t, d.text lib = c :: t ∧ kindOf c = d.kind := by
  cases hd : d.kind with
  | atom =>
    obtain ⟨c, t, ht⟩ := List.exists_cons_of_ne_nil (atom_ne_nil hf hd)
    exact ⟨c, t, ht, atom_chars hf hd c (by simp [ht])⟩
  | str =>
    cases d with
    | str s => exact ⟨'"', _, rfl, rfl⟩
    | _ => exact absurd hd (by simp [JsonDoc.kind])
  | array =>
    cases d with
    | array items => exact ⟨'[', _, rfl, rfl⟩
    | _ => exact absurd hd (by simp [JsonDoc.kind])
  | object =>
    cases d with
    | object items => exact ⟨'{', _, rfl, rfl⟩
    | _ => exact absurd hd (by simp [JsonDoc.kind])
  | mark => cases d <;> exact absurd hd (by simp [JsonDoc.kind])

theorem kind_eq (hf : FloatRepr lib) {d e : JsonDoc} {r s : List Char}
    (h : d.text lib ++ r = e.text lib ++ s) : d.kind = e.kind := by
  obtain ⟨c, t, ht, hc⟩ := text_head hf d
  obtain ⟨c', t', ht', hc'⟩ := text_head hf e
  rw [ht, ht', List.cons_append, List.cons_append] at h
  rw [← hc, ← hc', (List.cons.inj h).1]

theorem atom_reads (hf : FloatRepr lib) {d : JsonDoc} (hd : d.kind = .atom) :
    ReadsOff Marked (JsonDoc.text lib) d := by
  intro e r s hr hs h
  have he : e.kind = .atom := (kind_eq hf h).symm.trans hd
  have stops {d : JsonDoc} (hd : d.kind = .atom) : ∀ c ∈ d.text lib, ¬kindOf c = .mark := by
    intro c hc hmark
    rw [atom_chars hf hd c hc] at hmark
    exact absurd hmark (by decide)
  obtain ⟨htext, hrs⟩ := eq_of_stops (fun c => kindOf c = .mark) (stops hd) (stops he) hr hs h
  exact ⟨atom_injective hf hd he htext, hrs⟩

theorem marked_cons {c : Char} (h : kindOf c = .mark) (r : List Char) : Marked (c :: r) := by
  intro d hd
  obtain rfl := Option.some.inj hd
  exact h

theorem text_closed (hf : FloatRepr lib) {close : Char} (hc : kindOf close = .mark) (d : JsonDoc) :
    d.text lib ≠ [] ∧ (d.text lib).head? ≠ some close := by
  obtain ⟨c, t, ht, hkind⟩ := text_head hf d
  rw [ht]
  refine ⟨List.cons_ne_nil _ _, fun hclose => ?_⟩
  obtain rfl := Option.some.inj hclose
  rw [hc] at hkind
  cases d <;> exact absurd hkind (by simp [JsonDoc.kind])

theorem member_closed (e : JsonStr × JsonDoc) : member lib e ≠ [] ∧ (member lib e).head? ≠ some '}' :=
  ⟨List.cons_ne_nil _ _, by simp [member, encodeBasestringAscii]⟩

mutual

theorem text_reads (hf : FloatRepr lib) : (d : JsonDoc) → ReadsOff Marked (JsonDoc.text lib) d
  | .null | .bool _ | .int _ | .float _ => atom_reads hf rfl
  | .str t => by
    intro e r s _ _ h
    have hkind := kind_eq hf h
    cases e with
    | str u =>
      obtain ⟨rfl, hrs⟩ := string_reads t u r s trivial trivial h
      exact ⟨rfl, hrs⟩
    | _ => exact absurd hkind (by simp [JsonDoc.kind])
  | .array items => by
    have hitems := texts_reads hf items
    intro e r s _ _ h
    have hkind := kind_eq hf h
    cases e with
    | array items' =>
      have hbody := separated_closed ',' ']' (by decide) (text_closed hf (by decide)) (marked_cons (by decide))
        (marked_cons (by decide)) hitems
      rw [JsonDoc.text, JsonDoc.text, texts_eq_map, texts_eq_map] at h
      obtain ⟨rfl, hrs⟩ := hbody items' r s trivial trivial (List.cons.inj h).2
      exact ⟨rfl, hrs⟩
    | _ => exact absurd hkind (by simp [JsonDoc.kind])
  | .object items => by
    have hitems := members_reads hf items
    intro e r s _ _ h
    have hkind := kind_eq hf h
    cases e with
    | object items' =>
      have hbody := separated_closed ',' '}' (by decide) member_closed (marked_cons (by decide))
        (marked_cons (by decide)) hitems
      rw [JsonDoc.text, JsonDoc.text, members_eq_map, members_eq_map] at h
      obtain ⟨rfl, hrs⟩ := hbody items' r s trivial trivial (List.cons.inj h).2
      exact ⟨rfl, hrs⟩
    | _ => exact absurd hkind (by simp [JsonDoc.kind])

theorem texts_reads (hf : FloatRepr lib) : (ds : List JsonDoc) →
    ∀ d ∈ ds, ReadsOff Marked (JsonDoc.text lib) d
  | [] => by simp
  | d :: ds => by
    intro e he
    rcases List.mem_cons.mp he with h | he
    · rw [h]
      exact text_reads hf d
    · exact texts_reads hf ds e he

theorem members_reads (hf : FloatRepr lib) : (es : List (JsonStr × JsonDoc)) →
    ∀ e ∈ es, ReadsOff Marked (member lib) e
  | [] => by simp
  | (k, d) :: es => by
    intro e he
    rcases List.mem_cons.mp he with h | he
    · rw [h]
      exact (string_reads k).pair ((text_reads hf d).cons ':')
    · exact members_reads hf es e he

end

theorem text_injective (hf : FloatRepr lib) : Function.Injective (JsonDoc.text lib) :=
  injective_of_readsOff (by simp [Marked]) (text_reads hf)

theorem encodeUtf8_injective {s t : String} (h : encodeUtf8 s = encodeUtf8 t) : s = t := by
  have hs := decodeUtf8_encodeUtf8 s
  rw [h, decodeUtf8_encodeUtf8] at hs
  exact (Except.ok.inj hs).symm

end Values

end IpfsLite.Ipld
