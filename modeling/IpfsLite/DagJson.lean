import IpfsLite.IpldRoundTrip

/-!
`DAGJSONEncoder` of `services/dag_encoding.py`: what `json.dumps` writes of a decoded node, and what
`json.loads` reads of it. No decoder makes a `PBLink`; an object of any other type is refused.
-/

namespace IpfsLite.Ipld

open Ipns PyInt PyJson PyValue

section Encoder

def base64Digit (n : ℕ) : Char :=
  if n < 26 then Char.ofNat (65 + n)
  else if n < 52 then Char.ofNat (71 + n)
  else if n < 62 then Char.ofNat (n - 4)
  else if n = 62 then '+'
  else '/'

def b64encode : Bytes → List Char
  | [] => []
  | [a] => [base64Digit (a.toNat / 4), base64Digit (a.toNat % 4 * 16), '=', '=']
  | [a, b] =>
    [base64Digit (a.toNat / 4), base64Digit (a.toNat % 4 * 16 + b.toNat / 16), base64Digit (b.toNat % 16 * 4), '=']
  | a :: b :: c :: bs =>
    base64Digit (a.toNat / 4) :: base64Digit (a.toNat % 4 * 16 + b.toNat / 16) ::
      base64Digit (b.toNat % 16 * 4 + c.toNat / 64) :: base64Digit (c.toNat % 64) :: b64encode bs

variable (lib : NodeLib)

def jsFloat (bits : BitVec 64) : String :=
  if h : isFinite bits then lib.floatRepr ⟨bits, h⟩
  else if bits.toNat % 2 ^ 52 ≠ 0 then "NaN"
  else if bits.msb then "-Infinity"
  else "Infinity"

def dagKey : PyValue → Except PyError PyStr
  | .float bits => .ok (jsFloat lib bits)
  | k => jsonKey lib.toIpldLib k

def linkStr (value : PyValue) : Except PyError String :=
  (value.dropFirst.bind (parseCidValue lib.dag)).map lib.dag.formatCidForDisplay

def jsMember (key : PyStr) (text : List Char) : List Char := encodeBasestringAscii key ++ ':' :: ' ' :: text

def jsObject (members : List (List Char)) : List Char := '{' :: ([',', ' '].intercalate members ++ ['}'])

def notSerializable (v : PyValue) : PyError :=
  ⟨.typeError, s!"Object of type {lib.typeName v} is not JSON serializable"⟩

mutual

def dagText : PyValue → Except PyError (List Char)
  | .none => .ok "null".toList
  | .bool b => .ok (boolStr b).toList
  | .int i => (str i).map String.toList
  | .float bits => .ok (jsFloat lib bits).toList
  | .str s => .ok (encodeBasestringAscii s)
  -- the dictionaries that `default` returns for bytes and for a link
  | .bytes b =>
    .ok (jsObject [jsMember "/" (jsObject [jsMember "bytes" (encodeBasestringAscii (String.ofList (b64encode b)))])])
  | .cborTag tag value =>
    if tag = 42 then (linkStr lib value).map fun s => jsObject [jsMember "/" (encodeBasestringAscii (.text s))]
    else .error (notSerializable lib (.cborTag tag value))
  | .list items | .tuple items => do
    let texts ← dagTexts items
    .ok ('[' :: ([',', ' '].intercalate texts ++ [']']))
  | .dict items => do
    let texts ← dagMembers items
    .ok (jsObject texts)
  | v => .error (notSerializable lib v)

def dagTexts : List PyValue → Except PyError (List (List Char))
  | [] => .ok []
  | v :: vs => do
    let text ← dagText v
    let texts ← dagTexts vs
    .ok (text :: texts)

def dagMembers : List (PyValue × PyValue) → Except PyError (List (List Char))
  | [] => .ok []
  | (k, v) :: es => do
    let key ← dagKey lib k
    let text ← dagText v
    let texts ← dagMembers es
    .ok (jsMember key text :: texts)

end

/-- `json.dumps(node_data, cls=DAGJSONEncoder)` -/
def dagDumps (nodeData : PyValue) : Except PyError String := (dagText lib nodeData).map String.ofList

def dagKeyText (k : PyValue) : PyStr := (dagKey lib k).toOption.getD ""

mutual

def dagJson : PyValue → PyValue
  | .float bits => .float (cborFloat bits)
  | .str s => .str s.joined
  | .bytes b => .dict [(.str "/", .dict [(.str "bytes", .str (String.ofList (b64encode b)))])]
  | .cborTag _ value => .dict [(.str "/", .str ((linkStr lib value).toOption.getD ""))]
  | .list items | .tuple items => .list (dagJsonItems items)
  | .dict items => .dict (dictOf (dagJsonMembers items))
  | v => v

def dagJsonItems : List PyValue → List PyValue
  | [] => []
  | v :: vs => dagJson v :: dagJsonItems vs

def dagJsonMembers : List (PyValue × PyValue) → List (PyValue × PyValue)
  | [] => []
  | (k, v) :: es => (.str (dagKeyText lib k).joined, dagJson v) :: dagJsonMembers es

end

end Encoder

section Spaced

variable {parseFloat : List Char → BitVec 64}

structure ScansSpaced {α : Type} (scan : ℕ → List Char → Except PyError (List α × List Char))
    (IsText : List Char → α → Prop) (mark : Char) : Prop where
  head : ∀ t a rest, IsText t a → skipBlanks (t ++ rest) = t ++ rest ∧ ∀ u, t ++ rest ≠ mark :: u
  last : ∀ t a n rest, IsText t a → t.length < n → scan (n + 1) (t ++ mark :: rest) = .ok ([a], rest)
  more : ∀ t a n cs, IsText t a → t.length < n → skipBlanks cs = cs →
    scan (n + 1) (t ++ ',' :: ' ' :: cs) = (scan n cs).map fun p => (a :: p.1, p.2)

def spaced (t : List Char) : List Char := ',' :: ' ' :: t

theorem intercalate_spaced (t : List Char) (ts : List (List Char)) :
    [',', ' '].intercalate (t :: ts) = t ++ ts.flatMap spaced := by
  induction ts generalizing t with
  | nil => simp
  | cons u ts ih =>
    rw [List.intercalate_cons_cons, ih, List.flatMap_cons]
    simp [spaced]

section Lists

variable {α : Type} {scan : ℕ → List Char → Except PyError (List α × List Char)}
  {IsText : List Char → α → Prop} {mark : Char}

theorem ScansSpaced.texts (h : ScansSpaced scan IsText mark) {ts : List (List Char)} {as : List α}
    (hts : List.Forall₂ IsText ts as) : ∀ t a n rest, IsText t a → (t ++ ts.flatMap spaced).length + 1 < n →
      scan n (t ++ (ts.flatMap spaced ++ mark :: rest)) = .ok (a :: as, rest) := by
  induction hts with
  | nil =>
    intro t a n rest ht hn
    obtain ⟨n, rfl⟩ := Nat.exists_eq_succ_of_ne_zero (show n ≠ 0 by omega)
    apply h.last t a n rest ht
    rw [List.flatMap_nil, List.append_nil] at hn
    omega
  | @cons u b us bs hu _ ih =>
    intro t a n rest ht hn
    obtain ⟨n, rfl⟩ := Nat.exists_eq_succ_of_ne_zero (show n ≠ 0 by omega)
    have htext : t ++ ((u :: us).flatMap spaced ++ mark :: rest) =
        t ++ ',' :: ' ' :: (u ++ (us.flatMap spaced ++ mark :: rest)) := by simp [spaced]
    have hlength : t.length + ((u ++ us.flatMap spaced).length + 2) + 1 < n + 1 := by
      simp only [List.flatMap_cons, spaced, List.length_append, List.length_cons] at hn ⊢
      omega
    have hskip := (h.head u b (us.flatMap spaced ++ mark :: rest) hu).1
    rw [htext, h.more t a n _ ht (by omega) hskip, ih u b n rest hu (by omega)]
    rfl

theorem ScansSpaced.reads (h : ScansSpaced scan IsText mark) {start : Char} (make : List α → PyValue)
    (hnil : ∀ n rest, scanOnce parseFloat (n + 1) (start :: mark :: rest) = .ok (make [], rest))
    (hcons : ∀ n cs rest as, skipBlanks cs = cs → (∀ u, cs ≠ mark :: u) → scan n cs = .ok (as, rest) →
      scanOnce parseFloat (n + 1) (start :: cs) = .ok (make as, rest))
    {ts : List (List Char)} {as : List α} (hts : List.Forall₂ IsText ts as) :
    Reads parseFloat (start :: ([',', ' '].intercalate ts ++ [mark])) (make as) := by
  intro n rest hn _
  obtain ⟨n, rfl⟩ := Nat.exists_eq_succ_of_ne_zero (show n ≠ 0 by omega)
  cases hts with
  | nil => exact hnil n rest
  | @cons t a ts as ht hts =>
    rw [intercalate_spaced] at hn ⊢
    have htext : start :: (t ++ ts.flatMap spaced ++ [mark]) ++ rest =
        start :: (t ++ (ts.flatMap spaced ++ mark :: rest)) := by simp
    have hlength : (t ++ ts.flatMap spaced).length + 1 < n := by
      simp only [List.length_cons, List.length_append, List.length_nil] at hn ⊢
      omega
    obtain ⟨hskip, hhead⟩ := h.head t a (ts.flatMap spaced ++ mark :: rest) ht
    rw [htext]
    exact hcons n _ rest _ hskip hhead (h.texts hts t a n rest ht hlength)

end Lists

theorem scanItems_spaced : ScansSpaced (scanItems parseFloat) (Reads parseFloat) ']' where
  head := scanItems_scans.head
  last := scanItems_scans.last
  more t v n cs h hn hcs := by
    rw [scanItems, h n (',' :: ' ' :: cs) hn (closes_cons (by decide) _)]
    change (scanItems parseFloat n (skipBlanks cs)).map _ = _
    rw [hcs]

theorem reads_items {ts : List (List Char)} {vs : List PyValue} (h : List.Forall₂ (Reads parseFloat) ts vs) :
    Reads parseFloat ('[' :: ([',', ' '].intercalate ts ++ [']'])) (.list vs) := by
  refine scanItems_spaced.reads .list (fun _ _ => rfl) ?_ h
  intro n cs rest vs hskip hhead hscan
  rw [scanOnce, hskip]
  split
  · exact absurd rfl (hhead _)
  · rw [hscan]
    rfl

variable (parseFloat) in
def ReadsJsMember (t : List Char) (e : PyValue × PyValue) : Prop :=
  ∃ (key : PyStr) (text : List Char), t = jsMember key text ∧ e.1 = .str key.joined ∧ Reads parseFloat text e.2

theorem ReadsJsMember.scan {t : List Char} {e : PyValue × PyValue} (h : ReadsJsMember parseFloat t e) {n : ℕ}
    {rest : List Char} (hn : t.length < n) (hr : Closes rest) : ∃ key cs, e.1 = .str key ∧
      t ++ rest = '"' :: cs ∧ ∃ after, scanString cs = .ok (key, ':' :: after) ∧
        scanOnce parseFloat n (skipBlanks after) = .ok (e.2, rest) := by
  obtain ⟨key, text, rfl, hkey, hv⟩ := h
  refine ⟨key.joined, key.codePoints.flatMap escape ++ '"' :: ':' :: ' ' :: (text ++ rest), hkey, ?_,
    ' ' :: (text ++ rest), ?_, ?_⟩
  · simp [jsMember, encodeBasestringAscii]
  · exact scanString_text key _
  · change scanOnce parseFloat n (skipBlanks (text ++ rest)) = _
    rw [(hv.head rest).1]
    apply hv n rest _ hr
    rw [jsMember, List.length_append, List.length_cons, List.length_cons] at hn
    omega

theorem scanMembers_spaced : ScansSpaced (scanMembers parseFloat) (ReadsJsMember parseFloat) '}' where
  head t e rest h := by
    obtain ⟨key, text, rfl, -⟩ := h
    exact ⟨rfl, fun u hu => by simp [jsMember, encodeBasestringAscii] at hu⟩
  last t e n rest h hn := by
    obtain ⟨key, cs, hkey, htext, after, hstring, hread⟩ :=
      h.scan hn (closes_cons (show '}' ∈ [',', ']', '}'] by decide) rest)
    rw [htext, scanMembers, hstring]
    change Except.bind (scanOnce parseFloat n (skipBlanks after)) _ = _
    rw [hread, ← hkey]
    rfl
  more t e n cs h hn hcs := by
    obtain ⟨key, body, hkey, htext, after, hstring, hread⟩ :=
      h.scan hn (closes_cons (show ',' ∈ [',', ']', '}'] by decide) (' ' :: cs))
    rw [htext, scanMembers, hstring]
    change Except.bind (scanOnce parseFloat n (skipBlanks after)) _ = _
    rw [hread, ← hkey]
    change (scanMembers parseFloat n (skipBlanks cs)).map _ = _
    rw [hcs]

theorem reads_jsObject {ts : List (List Char)} {es : List (PyValue × PyValue)}
    (h : List.Forall₂ (ReadsJsMember parseFloat) ts es) : Reads parseFloat (jsObject ts) (.dict (dictOf es)) := by
  refine scanMembers_spaced.reads (fun es => .dict (dictOf es)) (fun _ _ => rfl) ?_ h
  intro n cs rest es hskip hhead hscan
  rw [scanOnce, hskip]
  split
  · exact absurd rfl (hhead _)
  · rw [hscan]
    rfl

theorem reads_jsMember {key : PyStr} {text : List Char} {v : PyValue} (h : Reads parseFloat text v) :
    Reads parseFloat (jsObject [jsMember key text]) (.dict [(.str key.joined, v)]) := by
  have hmember : ReadsJsMember parseFloat (jsMember key text) (.str key.joined, v) := ⟨key, text, rfl, rfl, h⟩
  exact reads_jsObject (.cons hmember .nil)

end Spaced

section Reading

variable {lib : NodeLib}

theorem infinite_bits {bits : BitVec 64} (h : ¬isFinite bits) (hfraction : bits.toNat % 2 ^ 52 = 0) :
    bits = if bits.msb then 0xFFF0000000000000 else 0x7FF0000000000000 := by
  have hexponent : bits.toNat / 2 ^ 52 % 2048 = 2047 := by
    by_contra hexponent
    apply h
    unfold isFinite floatNumber
    simp only [if_neg hexponent]
    split <;> rfl
  have hsmall := bits.isLt
  apply BitVec.eq_of_toNat_eq
  by_cases hsign : bits.msb = true
  · have hbig : 2 ^ 63 ≤ bits.toNat := by simpa [BitVec.msb_eq_decide] using hsign
    rw [if_pos hsign]
    change bits.toNat = 0xFFF0000000000000
    omega
  · have hbig : bits.toNat < 2 ^ 63 := by simpa [BitVec.msb_eq_decide] using hsign
    rw [if_neg hsign]
    change bits.toNat = 0x7FF0000000000000
    omega

theorem jsFloat_reads (hf : FloatReads lib.toIpldLib lib.parseFloat) (bits : BitVec 64) :
    Reads lib.parseFloat (jsFloat lib bits).toList (.float (cborFloat bits)) := by
  unfold jsFloat
  split_ifs with hfinite hnan hsign
  · have hbits : cborFloat bits = bits := if_neg fun h => h.1 hfinite
    rw [hbits]
    exact reads_float hf ⟨bits, hfinite⟩
  · have hbits : cborFloat bits = 0x7FF8000000000000 := if_pos ⟨hfinite, hnan⟩
    rw [hbits]
    exact reads_word fun rest => rfl
  · have hbits : cborFloat bits = 0xFFF0000000000000 := by
      rw [cborFloat, if_neg fun h => hnan h.2, infinite_bits hfinite (not_not.mp hnan), if_pos hsign]
    rw [hbits]
    exact reads_word fun rest => rfl
  · have hbits : cborFloat bits = 0x7FF0000000000000 := by
      rw [cborFloat, if_neg fun h => hnan h.2, infinite_bits hfinite (not_not.mp hnan), if_neg hsign]
    rw [hbits]
    exact reads_word fun rest => rfl

mutual

theorem dagText_reads (hf : FloatReads lib.toIpldLib lib.parseFloat) : (v : PyValue) → ∀ cs,
    dagText lib v = .ok cs → Reads lib.parseFloat cs (dagJson lib v)
  | .none => by
    intro cs h
    obtain rfl := Except.ok.inj h
    exact reads_word fun rest => rfl
  | .bool b => by
    intro cs h
    obtain rfl := Except.ok.inj h
    cases b with
    | false => exact reads_word fun rest => rfl
    | true => exact reads_word fun rest => rfl
  | .int i => by
    intro cs h
    obtain ⟨s, hs, rfl⟩ := map_ok.mp h
    exact reads_int hs
  | .float bits => by
    intro cs h
    obtain rfl := Except.ok.inj h
    exact jsFloat_reads hf bits
  | .str s => by
    intro cs h
    obtain rfl := Except.ok.inj h
    exact reads_string s
  | .bytes b => by
    intro cs h
    obtain rfl := Except.ok.inj h
    exact reads_jsMember (reads_jsMember (reads_string _))
  | .cborTag tag value => by
    intro cs h
    rw [dagText] at h
    split_ifs at h
    obtain ⟨s, hs, rfl⟩ := map_ok.mp h
    rw [dagJson, hs]
    exact reads_jsMember (reads_string (.text s))
  | .list items | .tuple items => by
    intro cs h
    obtain ⟨texts, htexts, h⟩ := bind_ok.mp h
    obtain rfl := Except.ok.inj h
    exact reads_items (dagTexts_reads hf items texts htexts)
  | .dict items => by
    intro cs h
    obtain ⟨texts, htexts, h⟩ := bind_ok.mp h
    obtain rfl := Except.ok.inj h
    exact reads_jsObject (dagMembers_reads hf items texts htexts)
  | .number _ | .set _ | .ipldNode _ | .object _ => by
    intro cs h
    cases h

theorem dagTexts_reads (hf : FloatReads lib.toIpldLib lib.parseFloat) : (vs : List PyValue) → ∀ ts,
    dagTexts lib vs = .ok ts → List.Forall₂ (Reads lib.parseFloat) ts (dagJsonItems lib vs)
  | [] => by
    intro ts h
    obtain rfl := Except.ok.inj h
    exact .nil
  | v :: vs => by
    intro ts h
    obtain ⟨text, htext, h⟩ := bind_ok.mp h
    obtain ⟨texts, htexts, h⟩ := bind_ok.mp h
    obtain rfl := Except.ok.inj h
    exact .cons (dagText_reads hf v text htext) (dagTexts_reads hf vs texts htexts)

theorem dagMembers_reads (hf : FloatReads lib.toIpldLib lib.parseFloat) : (es : List (PyValue × PyValue)) → ∀ ts,
    dagMembers lib es = .ok ts → List.Forall₂ (ReadsJsMember lib.parseFloat) ts (dagJsonMembers lib es)
  | [] => by
    intro ts h
    obtain rfl := Except.ok.inj h
    exact .nil
  | (k, v) :: es => by
    intro ts h
    obtain ⟨key, hkey, h⟩ := bind_ok.mp h
    obtain ⟨text, htext, h⟩ := bind_ok.mp h
    obtain ⟨texts, htexts, h⟩ := bind_ok.mp h
    obtain rfl := Except.ok.inj h
    have hname : dagKeyText lib k = key := by simp [dagKeyText, hkey, Except.toOption]
    refine .cons ⟨key, text, rfl, ?_, dagText_reads hf v text htext⟩ (dagMembers_reads hf es texts htexts)
    rw [hname]

end

theorem jsonLoads_dagDumps (hf : FloatReads lib.toIpldLib lib.parseFloat) {nodeData : PyValue} {text : String}
    (h : dagDumps lib nodeData = .ok text) : jsonLoads lib.parseFloat text = .ok (dagJson lib nodeData) := by
  obtain ⟨cs, hcs, rfl⟩ := map_ok.mp h
  exact jsonLoads_reads (dagText_reads hf nodeData cs hcs)

end Reading

end IpfsLite.Ipld
