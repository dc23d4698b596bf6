import IpfsLite.IpldDocument
import IpfsLite.Lib.Leb128

namespace IpfsLite.Ipld

open Ipns PyInt PrefixCode

def isScalar : PyValue → Bool
  | .none | .bool _ | .int _ | .float _ | .str _ | .bytes _ | .ipldNode _ => true
  | _ => false

mutual

inductive SameData : PyValue → PyValue → Prop
  | scalar (v : PyValue) (h : isScalar v) : SameData v v
  | nodeStr (cidStr : String) : SameData (.ipldNode cidStr) (.str cidStr)
  | strNode (cidStr : String) : SameData (.str cidStr) (.ipldNode cidStr)
  | list {vs ws : List PyValue} (h : SameItems vs ws) : SameData (.list vs) (.list ws)
  | tuple {vs ws : List PyValue} (h : SameItems vs ws) : SameData (.tuple vs) (.tuple ws)
  | dict {es fs : List (PyValue × PyValue)} (h : SameDict es fs) : SameData (.dict es) (.dict fs)

inductive SameItems : List PyValue → List PyValue → Prop
  | nil : SameItems [] []
  | cons {v w : PyValue} {vs ws : List PyValue} (h : SameData v w) (hs : SameItems vs ws) :
      SameItems (v :: vs) (w :: ws)

inductive SameDict : List (PyValue × PyValue) → List (PyValue × PyValue) → Prop
  | nil : SameDict [] []
  | cons {k l v w : PyValue} {es gs : List (PyValue × PyValue)} (fs : List (PyValue × PyValue))
      (hk : SameData k l) (hv : SameData v w) (hs : SameDict es (fs ++ gs)) :
      SameDict ((k, v) :: es) (fs ++ (l, w) :: gs)

end

mutual

def Built : PyValue → Prop
  | .number _ | .set _ | .cborTag .. | .object _ => False
  | .list items | .tuple items => BuiltItems items
  | .dict items => BuiltDict items
  | _ => True

def BuiltItems : List PyValue → Prop
  | [] => True
  | v :: vs => Built v ∧ BuiltItems vs

def BuiltDict : List (PyValue × PyValue) → Prop
  | [] => True
  | (k, v) :: es => (Built k ∧ Built v) ∧ BuiltDict es

end

/-- `cbor2` writes the document of what it is given, a map in the order of its items. It fails on an
`IPLDNode`. -/
structure CborWrites (lib : IpldLib) (enc : CborDoc → Bytes) : Prop where
  injective : Function.Injective enc
  dumps : ∀ v d, Built v → cborDoc v = some d → lib.cborDumps v = .ok (enc d)
  fails : ∀ v, Built v → cborDoc v = none → ∃ e, lib.cborDumps v = .error e

theorem builtDict_append {es fs : List (PyValue × PyValue)} :
    BuiltDict (es ++ fs) ↔ BuiltDict es ∧ BuiltDict fs := by
  induction es with
  | nil => simp [BuiltDict]
  | cons e es ih => simp [BuiltDict, ih, and_assoc]

mutual

theorem SameData.built {v w : PyValue} : SameData v w → Built v ∧ Built w
  | .scalar v h => by cases v <;> first | exact ⟨trivial, trivial⟩ | exact absurd h (by simp [isScalar])
  | .nodeStr _ | .strNode _ => ⟨trivial, trivial⟩
  | .list h | .tuple h => h.built
  | .dict h => h.built

theorem SameItems.built {vs ws : List PyValue} : SameItems vs ws → BuiltItems vs ∧ BuiltItems ws
  | .nil => ⟨trivial, trivial⟩
  | .cons h hs => ⟨⟨h.built.1, hs.built.1⟩, ⟨h.built.2, hs.built.2⟩⟩

theorem SameDict.built {es fs : List (PyValue × PyValue)} : SameDict es fs → BuiltDict es ∧ BuiltDict fs
  | .nil => ⟨trivial, trivial⟩
  | .cons _ hk hv hs => by
    obtain ⟨hfs, hgs⟩ := builtDict_append.mp hs.built.2
    exact ⟨⟨⟨hk.built.1, hv.built.1⟩, hs.built.1⟩,
      builtDict_append.mpr ⟨hfs, ⟨hk.built.2, hv.built.2⟩, hgs⟩⟩

end

mutual

theorem built_convert : (v : PyValue) → Built v → Built (convertIpldNodes v)
  | .ipldNode _, _ => trivial
  | .dict items, h => builtDict_convert items h
  | .list items, h => builtItems_convert items h
  | .none, h | .bool _, h | .int _, h | .float _, h | .number _, h | .str _, h | .bytes _, h | .tuple _, h
  | .set _, h | .cborTag .., h | .object _, h => h

theorem builtItems_convert : (vs : List PyValue) → BuiltItems vs → BuiltItems (convertItems vs)
  | [], h => h
  | v :: vs, h => ⟨built_convert v h.1, builtItems_convert vs h.2⟩

theorem builtDict_convert : (es : List (PyValue × PyValue)) → BuiltDict es → BuiltDict (convertValues es)
  | [], h => h
  | (_, v) :: es, h => ⟨⟨h.1.1, built_convert v h.1.2⟩, builtDict_convert es h.2⟩

end

variable {lib : IpldLib} {enc : CborDoc → Bytes} {codec : String} {x y : PyValue}

theorem toOption_eq_some {α : Type} {r : Except PyError α} {a : α} : r.toOption = some a ↔ r = .ok a := by
  cases r <;> simp [Except.toOption]

theorem same_iff_toOption {α : Type} {r q : Except PyError α} :
    (∀ a, r = .ok a ↔ q = .ok a) ↔ r.toOption = q.toOption := by
  constructor
  · intro h
    apply Option.ext
    intro a
    rw [toOption_eq_some, toOption_eq_some]
    exact h a
  · intro h a
    rw [← toOption_eq_some, h, toOption_eq_some]

theorem cborDumps_document (hc : CborWrites lib enc) (hb : Built x) :
    (lib.cborDumps x).toOption = (cborDoc x).map enc := by
  cases hd : cborDoc x with
  | none =>
    obtain ⟨e, he⟩ := hc.fails x hb hd
    rw [he]
    rfl
  | some d =>
    rw [hc.dumps x d hb hd]
    rfl

theorem jsonDumps_document :
    ((jsonDumps lib x).map encodeUtf8).toOption =
      (jsonDoc lib x).map fun d => encodeUtf8 (String.ofList (d.text lib)) := by
  rw [jsonDumps, toOption_map, toOption_map, jsonText_doc]
  cases jsonDoc lib x <;> rfl

def written (lib : IpldLib) (enc : CborDoc → Bytes) : JsonDoc ⊕ CborDoc → Bytes
  | .inl d => encodeUtf8 (String.ofList (d.text lib))
  | .inr d => enc d

theorem encodeNode_document (hc : CborWrites lib enc) (hcodec : codec = "dag-json" ∨ codec = "dag-cbor")
    (hb : Built x) :
    (encodeNode lib x codec).toOption = (document lib codec x).map (written lib enc) := by
  unfold encodeNode document
  rcases hcodec with rfl | rfl
  · cases checkNan x with
    | error e => rfl
    | ok u =>
      change ((jsonDumps lib x).map encodeUtf8).toOption =
        ((jsonDoc lib x).map Sum.inl).map (written lib enc)
      rw [jsonDumps_document, Option.map_map]
      rfl
  · cases checkNan x with
    | error e => rfl
    | ok u =>
      change (lib.cborDumps (convertIpldNodes x)).toOption =
        ((cborDoc (convertIpldNodes x)).map Sum.inr).map (written lib enc)
      rw [cborDumps_document hc (built_convert x hb), Option.map_map]
      rfl

theorem document_kind {d e : JsonDoc ⊕ CborDoc} (hd : document lib codec x = some d)
    (he : document lib codec y = some e) : d.isLeft = e.isLeft := by
  unfold document at hd he
  split at hd
  · split at he
    · split at hd
      · rw [if_pos (by assumption)] at he
        obtain ⟨_, -, rfl⟩ := Option.map_eq_some_iff.mp hd
        obtain ⟨_, -, rfl⟩ := Option.map_eq_some_iff.mp he
        rfl
      · rw [if_neg (by assumption)] at he
        obtain ⟨_, -, rfl⟩ := Option.map_eq_some_iff.mp hd
        obtain ⟨_, -, rfl⟩ := Option.map_eq_some_iff.mp he
        rfl
    · exact absurd he (by simp)
  · exact absurd hd (by simp)

theorem written_injective (hf : FloatRepr lib) (hc : CborWrites lib enc) {d e : JsonDoc ⊕ CborDoc}
    (hkind : d.isLeft = e.isLeft) (h : written lib enc d = written lib enc e) : d = e := by
  cases d with
  | inl d =>
    cases e with
    | inl e =>
      have htext : d.text lib = e.text lib := String.ofList_inj.mp (encodeUtf8_injective h)
      rw [text_injective hf htext]
    | inr e => exact absurd hkind (by simp)
  | inr d =>
    cases e with
    | inl e => exact absurd hkind (by simp)
    | inr e => rw [hc.injective h]

theorem addNode_congr (h : ∀ b, encodeNode lib x codec = .ok b ↔ encodeNode lib y codec = .ok b)
    (added : AddedNode) : addNode lib x codec = .ok added ↔ addNode lib y codec = .ok added := by
  have hbind (node : PyValue) : addNode lib node codec = .ok added ↔ ∃ data,
      encodeNode lib node codec = .ok data ∧ ((lib.computeCidV1 data codec).bind fun cid =>
        .ok ⟨cid, data, .ipldNode (lib.formatCidForDisplay cid)⟩) = .ok added := bind_ok
  rw [hbind, hbind]
  simp only [h]

mutual

inductive SameOrder : PyValue → PyValue → Prop
  | refl (v : PyValue) : SameOrder v v
  | nodeStr (cidStr : String) : SameOrder (.ipldNode cidStr) (.str cidStr)
  | strNode (cidStr : String) : SameOrder (.str cidStr) (.ipldNode cidStr)
  | list {vs ws : List PyValue} (h : SameOrderItems vs ws) : SameOrder (.list vs) (.list ws)
  | dict {es fs : List (PyValue × PyValue)} (h : SameOrderDict es fs) : SameOrder (.dict es) (.dict fs)

inductive SameOrderItems : List PyValue → List PyValue → Prop
  | nil : SameOrderItems [] []
  | cons {v w : PyValue} {vs ws : List PyValue} (h : SameOrder v w) (hs : SameOrderItems vs ws) :
      SameOrderItems (v :: vs) (w :: ws)

inductive SameOrderDict : List (PyValue × PyValue) → List (PyValue × PyValue) → Prop
  | nil : SameOrderDict [] []
  | cons {v w : PyValue} {es fs : List (PyValue × PyValue)} (k : PyValue) (h : SameOrder v w)
      (hs : SameOrderDict es fs) : SameOrderDict ((k, v) :: es) ((k, w) :: fs)

end

mutual

theorem SameOrder.agree {v w : PyValue} : SameOrder v w → checkNan v = checkNan w ∧
    jsonDoc lib v = jsonDoc lib w ∧ convertIpldNodes v = convertIpldNodes w
  | .refl _ | .nodeStr _ | .strNode _ => ⟨rfl, rfl, rfl⟩
  | .list h => by
    obtain ⟨hn, hj, hv⟩ := h.agree
    exact ⟨hn, congrArg (Option.map JsonDoc.array) hj, congrArg PyValue.list hv⟩
  | .dict h => by
    obtain ⟨hn, hj, hv⟩ := h.agree
    exact ⟨hn, congrArg (Option.map JsonDoc.object) hj, congrArg PyValue.dict hv⟩

theorem SameOrderItems.agree {vs ws : List PyValue} : SameOrderItems vs ws →
    checkNanItems vs = checkNanItems ws ∧ jsonDocs lib vs = jsonDocs lib ws ∧
      convertItems vs = convertItems ws
  | .nil => ⟨rfl, rfl, rfl⟩
  | .cons h hs => by
    obtain ⟨hn, hj, hv⟩ := h.agree
    obtain ⟨hns, hjs, hvs⟩ := hs.agree
    simp only [checkNanItems, jsonDocs, convertItems, hn, hj, hv, hns, hjs, hvs, and_self]

theorem SameOrderDict.agree {es fs : List (PyValue × PyValue)} : SameOrderDict es fs →
    checkNanValues es = checkNanValues fs ∧ jsonMembers lib es = jsonMembers lib fs ∧
      convertValues es = convertValues fs
  | .nil => ⟨rfl, rfl, rfl⟩
  | .cons k h hs => by
    obtain ⟨hn, hj, hv⟩ := h.agree
    obtain ⟨hns, hjs, hvs⟩ := hs.agree
    simp only [checkNanValues, jsonMembers, convertValues, hn, hj, hv, hns, hjs, hvs, and_self]

end

theorem document_of_sameOrder (h : SameOrder x y) : document lib codec x = document lib codec y := by
  obtain ⟨hn, hj, hv⟩ : checkNan x = checkNan y ∧ jsonDoc lib x = jsonDoc lib y ∧
    convertIpldNodes x = convertIpldNodes y := h.agree
  rw [document, document, hn, hj, hv]

theorem encodeNode_canonical_iff (lib : IpldLib) (enc : CborDoc → Bytes) (hf : FloatRepr lib)
    (hc : CborWrites lib enc) (codec : String) (hcodec : codec = "dag-json" ∨ codec = "dag-cbor")
    (x y : PyValue) (h : SameData x y) :
    (((∀ b, encodeNode lib x codec = .ok b ↔ encodeNode lib y codec = .ok b) ∧
      ∀ added, addNode lib x codec = .ok added ↔ addNode lib y codec = .ok added) ↔
        document lib codec x = document lib codec y) ∧
    (SameOrder x y → document lib codec x = document lib codec y) := by
  refine ⟨?_, document_of_sameOrder⟩
  have hx := encodeNode_document hc hcodec h.built.1
  have hy := encodeNode_document hc hcodec h.built.2
  have hbytes : (∀ b, encodeNode lib x codec = .ok b ↔ encodeNode lib y codec = .ok b) ↔
      document lib codec x = document lib codec y := by
    rw [same_iff_toOption, hx, hy]
    constructor
    · intro he
      cases hd : document lib codec x with
      | none =>
        rw [hd] at he
        exact (Option.map_eq_none_iff.mp he.symm).symm
      | some d =>
        rw [hd] at he
        obtain ⟨e, hdoc, hw⟩ := Option.map_eq_some_iff.mp he.symm
        rw [hdoc, written_injective hf hc (document_kind hd hdoc) hw.symm]
    · exact fun he => by rw [he]
  constructor
  · exact fun hboth => hbytes.mp hboth.1
  · exact fun he => ⟨hbytes.mpr he, addNode_congr (hbytes.mpr he)⟩

section Sample

def bigEndian : ℕ → ℕ → Bytes
  | 0, _ => []
  | w + 1, n => .ofNat (n / 256 ^ w) :: bigEndian w (n % 256 ^ w)

/-- The low bits of the first byte, and the number in the bytes after it. CBOR ends at 64 bits. -/
def argument (n : ℕ) : ℕ × ℕ :=
  if n < 24 then (n, 0)
  else if n < 2 ^ 8 then (24, n)
  else if n < 2 ^ 16 then (25, n)
  else if n < 2 ^ 32 then (26, n)
  else if n < 2 ^ 64 then (27, n)
  else (28, n)

/-- What is not finite is written as a half float. -/
def floatArgument (bits : BitVec 64) : ℕ × ℕ :=
  if bits = 0x7FF8000000000000 then (25, 0x7E00)
  else if bits = 0x7FF0000000000000 then (25, 0x7C00)
  else if bits = 0xFFF0000000000000 then (25, 0xFC00)
  else (27, bits.toNat)

def argumentBytes (p : ℕ × ℕ) : Bytes :=
  if p.1 < 24 then [] else if p.1 < 28 then bigEndian (2 ^ (p.1 - 24)) p.2 else Leb128.encode p.2

def head (p : ℕ × ℕ × ℕ) : Bytes := .ofNat (p.1 * 32 + p.2.1) :: argumentBytes p.2

def lead : CborDoc → ℕ × ℕ × ℕ
  | .int (.ofNat n) => (0, argument n)
  | .int (.negSucc n) => (1, argument n)
  | .bytes b => (2, argument b.length)
  | .str s => (3, argument (encodeUtf8 s).length)
  | .array items => (4, argument items.length)
  | .map items => (5, argument items.length)
  | .bool false => (7, 20, 0)
  | .bool true => (7, 21, 0)
  | .null => (7, 22, 0)
  | .float bits => (7, floatArgument bits)

mutual

def body : CborDoc → Bytes
  | .bytes b => b
  | .str s => encodeUtf8 s
  | .array items => bodies items
  | .map items => pairs items
  | _ => []

def bodies : List CborDoc → Bytes
  | [] => []
  | d :: ds => head (lead d) ++ body d ++ bodies ds

def pairs : List (CborDoc × CborDoc) → Bytes
  | [] => []
  | (k, d) :: es => head (lead k) ++ body k ++ (head (lead d) ++ body d) ++ pairs es

end

def item (d : CborDoc) : Bytes := head (lead d) ++ body d

theorem bodies_eq_flatMap (ds : List CborDoc) : bodies ds = ds.flatMap item := by
  induction ds with
  | nil => rfl
  | cons d ds ih => rw [bodies, ih, List.flatMap_cons, item]

def pair (e : CborDoc × CborDoc) : Bytes := item e.1 ++ item e.2

theorem pairs_eq_flatMap (es : List (CborDoc × CborDoc)) : pairs es = es.flatMap pair := by
  induction es with
  | nil => rfl
  | cons e es ih => rw [pairs, ih, List.flatMap_cons, pair, item, item]

theorem byte_inj {n m : ℕ} (hn : n < 256) (hm : m < 256) (h : UInt8.ofNat n = UInt8.ofNat m) : n = m := by
  have ht := congrArg UInt8.toNat h
  rwa [UInt8.toNat_ofNat_of_lt' hn, UInt8.toNat_ofNat_of_lt' hm] at ht

theorem bigEndian_reads {w n m : ℕ} (hn : n < 256 ^ w) (hm : m < 256 ^ w) {r s : Bytes}
    (h : bigEndian w n ++ r = bigEndian w m ++ s) : n = m ∧ r = s := by
  induction w generalizing n m with
  | zero =>
    rw [pow_zero] at hn hm
    exact ⟨by omega, h⟩
  | succ w ih =>
    have hpos : 0 < 256 ^ w := by positivity
    have byte {n : ℕ} (hn : n < 256 ^ (w + 1)) : n / 256 ^ w < 256 := by
      apply Nat.div_lt_of_lt_mul
      rwa [← pow_succ]
    obtain ⟨hb, hrest⟩ := List.cons.inj h
    have hdiv := byte_inj (byte hn) (byte hm) hb
    obtain ⟨hmod, hrs⟩ := ih (Nat.mod_lt _ hpos) (Nat.mod_lt _ hpos) hrest
    exact ⟨by rw [← Nat.div_add_mod n (256 ^ w), hdiv, hmod, Nat.div_add_mod], hrs⟩

structure Fits (p : ℕ × ℕ × ℕ) : Prop where
  major : p.1 < 8
  low : p.2.1 < 29
  none : p.2.1 < 24 → p.2.2 = 0
  width : 24 ≤ p.2.1 → p.2.1 < 28 → p.2.2 < 256 ^ 2 ^ (p.2.1 - 24)

theorem fits_argument {major : ℕ} (h : major < 8) (n : ℕ) : Fits (major, argument n) := by
  unfold argument
  split_ifs <;> constructor <;> simp <;> omega

theorem lead_fits (d : CborDoc) : Fits (lead d) := by
  have simple {low : ℕ} (h : low < 24) : Fits (7, low, 0) :=
    ⟨by simp, by dsimp only; omega, fun _ => rfl, fun hge => by dsimp only at hge; omega⟩
  cases d with
  | null => exact simple (by decide)
  | bool b => cases b <;> exact simple (by decide)
  | int i => cases i <;> exact fits_argument (by decide) _
  | float bits =>
    have hbits := bits.isLt
    change Fits (7, floatArgument bits)
    unfold floatArgument
    split_ifs <;> constructor <;> simp
    omega
  | _ => exact fits_argument (by decide) _

theorem argument_injective : Function.Injective argument := by
  intro n m h
  unfold argument at h
  split_ifs at h <;> simp only [Prod.mk.injEq] at h <;> omega

theorem floatArgument_injective : Function.Injective floatArgument := by
  intro x y h
  unfold floatArgument at h
  split_ifs at h <;> simp only [Prod.mk.injEq] at h <;>
    first
      | (subst_vars; rfl)
      | exact BitVec.eq_of_toNat_eq h.2
      | omega

theorem floatArgument_ne {bits : BitVec 64} {low n : ℕ} (h : low < 24) : floatArgument bits ≠ (low, n) := by
  intro heq
  unfold floatArgument at heq
  split_ifs at heq <;> simp only [Prod.mk.injEq] at heq <;> omega

theorem head_reads {p q : ℕ × ℕ × ℕ} (hp : Fits p) (hq : Fits q) {r s : Bytes}
    (h : head p ++ r = head q ++ s) : p = q ∧ r = s := by
  obtain ⟨major, low, n⟩ := p
  obtain ⟨major', low', m⟩ := q
  obtain ⟨hmajor, hlow, hnone, hwidth⟩ := hp
  obtain ⟨hmajor', hlow', hnone', hwidth'⟩ := hq
  dsimp only at hmajor hlow hnone hwidth hmajor' hlow' hnone' hwidth'
  obtain ⟨hb, hrest⟩ := List.cons.inj h
  have hb := byte_inj (by dsimp only; omega) (by dsimp only; omega) hb
  dsimp only at hb
  obtain rfl : major = major' := by omega
  obtain rfl : low = low' := by omega
  change argumentBytes (low, n) ++ r = argumentBytes (low, m) ++ s at hrest
  unfold argumentBytes at hrest
  dsimp only at hrest
  split_ifs at hrest with hsmall hwide
  · exact ⟨by rw [hnone hsmall, hnone' hsmall], hrest⟩
  · obtain ⟨rfl, hrs⟩ := bigEndian_reads (hwidth (by omega) hwide) (hwidth' (by omega) hwide) hrest
    exact ⟨rfl, hrs⟩
  · obtain ⟨rfl, -, hrs⟩ := (Leb128.encode_encodes n).split (Leb128.encode_encodes m) hrest
    exact ⟨rfl, hrs⟩

theorem lead_cases {d e : CborDoc} (h : lead d = lead e) : d = e ∨
    (∃ b c, d = .bytes b ∧ e = .bytes c ∧ b.length = c.length) ∨
    (∃ s t, d = .str s ∧ e = .str t ∧ (encodeUtf8 s).length = (encodeUtf8 t).length) ∨
    (∃ ds es, d = .array ds ∧ e = .array es ∧ ds.length = es.length) ∨
    ∃ ds es, d = .map ds ∧ e = .map es ∧ ds.length = es.length := by
  rcases d with _ | (_ | _) | (n | n) | a | s | b | ds | ds <;>
    rcases e with _ | (_ | _) | (m | m) | b' | t | c | es | es <;>
    simp only [lead, Prod.mk.injEq, true_and] at h <;>
    first
      | (left; rfl)
      | (exfalso; omega)
      | exact absurd h (floatArgument_ne (by decide))
      | exact absurd h.symm (floatArgument_ne (by decide))
      | (left; rw [argument_injective h])
      | (left; rw [floatArgument_injective h])
      | (have h := argument_injective h; simp; exact .inr h)

theorem item_reads_of (d : CborDoc) (ha : ∀ ds, d = .array ds → ∀ a ∈ ds, ReadsOff Free item a)
    (hm : ∀ es, d = .map es → ∀ e ∈ es, ReadsOff Free pair e) : ReadsOff Free item d := by
  intro e r s _ _ h
  simp only [item, List.append_assoc] at h
  obtain ⟨hlead, hbody⟩ := head_reads (lead_fits d) (lead_fits e) h
  obtain rfl | ⟨b, c, rfl, rfl, hl⟩ | ⟨t, u, rfl, rfl, hl⟩ | ⟨ds, es, rfl, rfl, hl⟩ | ⟨ds, es, rfl, rfl, hl⟩ :=
    lead_cases hlead
  · exact ⟨rfl, List.append_cancel_left hbody⟩
  · obtain ⟨rfl, hrs⟩ := List.append_inj hbody hl
    exact ⟨rfl, hrs⟩
  · obtain ⟨ht, hrs⟩ := List.append_inj hbody hl
    exact ⟨by rw [encodeUtf8_injective ht], hrs⟩
  · rw [body, body, bodies_eq_flatMap, bodies_eq_flatMap] at hbody
    obtain ⟨rfl, hrs⟩ := flatMap_length hl (ha ds rfl) hbody
    exact ⟨rfl, hrs⟩
  · rw [body, body, pairs_eq_flatMap, pairs_eq_flatMap] at hbody
    obtain ⟨rfl, hrs⟩ := flatMap_length hl (hm ds rfl) hbody
    exact ⟨rfl, hrs⟩

mutual

theorem item_reads : (d : CborDoc) → ReadsOff Free item d
  | .array ds => item_reads_of _ (by rintro _ ⟨rfl⟩; exact items_reads ds) (by rintro _ ⟨⟩)
  | .map es => item_reads_of _ (by rintro _ ⟨⟩) (by rintro _ ⟨rfl⟩; exact pairs_reads es)
  | .null | .bool _ | .int _ | .float _ | .str _ | .bytes _ =>
    item_reads_of _ (by rintro _ ⟨⟩) (by rintro _ ⟨⟩)

theorem items_reads : (ds : List CborDoc) → ∀ d ∈ ds, ReadsOff Free item d
  | [] => by simp
  | d :: ds => by
    intro a ha
    rcases List.mem_cons.mp ha with h | ha
    · rw [h]
      exact item_reads d
    · exact items_reads ds a ha

theorem pairs_reads : (es : List (CborDoc × CborDoc)) → ∀ e ∈ es, ReadsOff Free pair e
  | [] => by simp
  | (k, d) :: es => by
    intro a ha
    rcases List.mem_cons.mp ha with h | ha
    · rw [h]
      exact (item_reads k).pair (item_reads d)
    · exact pairs_reads es a ha

end

def linkedData : Bytes :=
  [0xA2, 0x64, 110, 97, 109, 101, 0x61, 97, 0x64, 108, 105, 110, 107, 0x81, 0x78, 59] ++
    encodeUtf8 KnownCid.rawA.str

def sha256Linked : Bytes :=
  [18, 32, 22, 78, 205, 80, 45, 77, 248, 87, 163, 243, 238, 48, 233, 90, 147, 45, 149, 197, 8, 222, 126,
    214, 245, 227, 129, 27, 34, 217, 71, 48, 48, 99]

def linkedCid : KnownCid :=
  ⟨"bafyreiawj3gvalkn7bl2h47ogduvveznsxcqrxt62326hai3elmuombqmm", [1, 113] ++ sha256Linked, "dag-cbor",
    sha256Linked⟩

def sampleLib : IpldLib where
  floatRepr x := x.1.toNat.repr ++ ".0"
  typeName _ := "object"
  cborDumps v :=
    match cborDoc v with
    | some d => .ok (item d)
    | none => .error ⟨.cborError, "cannot serialize type"⟩
  computeCidV1 data codec :=
    if data = linkedData ∧ codec = "dag-cbor" then .ok linkedCid.bytes
    else .error ⟨.valueError, "no known CID"⟩
  formatCidForDisplay cid := if cid = linkedCid.bytes then linkedCid.str else ""

theorem sampleLib_floatRepr : FloatRepr sampleLib where
  injective x y h := by
    have hl := congrArg String.toList h
    simp only [sampleLib, String.toList_append] at hl
    have hn : x.1.toNat.repr = y.1.toNat.repr := String.toList_inj.mp (List.append_cancel_right hl)
    exact Subtype.ext (BitVec.eq_of_toNat_eq (natText_injective hn))
  chars x c hc := by
    simp only [sampleLib, String.toList_append, Nat.toList_repr, List.mem_append] at hc
    rcases hc with hc | hc
    · exact .inl (PyInt.toDigits_isDigit _ c hc)
    · have hc : c = '.' ∨ c = '0' := by simpa using hc
      rcases hc with rfl | rfl <;> decide
  notInt x := ⟨'.', by simp [sampleLib], by decide⟩

theorem sampleLib_cborWrites : CborWrites sampleLib item where
  injective := injective_of_readsOff trivial item_reads
  dumps v d _ hd := by simp [sampleLib, hd]
  fails v _ hd := ⟨⟨.cborError, "cannot serialize type"⟩, by simp [sampleLib, hd]⟩

def linked (link : PyValue) : PyValue := .dict [(.str "name", .str "a"), (.str "link", .list [link])]

def linkedNode : PyValue := linked (.ipldNode KnownCid.rawA.str)

def linkedStr : PyValue := linked (.str KnownCid.rawA.str)

theorem linked_same : SameData linkedNode linkedStr :=
  .dict (.cons [] (.scalar _ rfl) (.scalar _ rfl) (.cons [] (.scalar _ rfl)
    (.list (.cons (.nodeStr _) .nil)) .nil))

theorem encodeNode_canonical_linked :
    (∀ b, encodeNode sampleLib linkedNode "dag-cbor" = .ok b ↔
      encodeNode sampleLib linkedStr "dag-cbor" = .ok b) ∧
    ∀ added, addNode sampleLib linkedNode "dag-cbor" = .ok added ↔
      addNode sampleLib linkedStr "dag-cbor" = .ok added :=
  (encodeNode_canonical_iff sampleLib item sampleLib_floatRepr sampleLib_cborWrites "dag-cbor" (.inr rfl)
    linkedNode linkedStr linked_same).1.mpr rfl

def ab : PyValue := .dict [(.str "a", .int 1), (.str "b", .int 2)]

def ba : PyValue := .dict [(.str "b", .int 2), (.str "a", .int 1)]

theorem ab_same : SameData ab ba :=
  .dict (.cons [(.str "b", .int 2)] (.scalar _ rfl) (.scalar _ rfl)
    (.cons [] (.scalar _ rfl) (.scalar _ rfl) .nil))

theorem encodeNode_canonical_fails :
    (¬∀ x y, SameData x y → ∀ b, encodeNode sampleLib x "dag-json" = .ok b ↔
      encodeNode sampleLib y "dag-json" = .ok b) ∧
    ¬∀ x y, SameData x y → ∀ b, encodeNode sampleLib x "dag-cbor" = .ok b ↔
      encodeNode sampleLib y "dag-cbor" = .ok b := by
  constructor
  · intro hall
    have hab : encodeNode sampleLib ab "dag-json" = .ok (encodeUtf8 "\x7b\"a\":1,\"b\":2\x7d") := by
      decide +kernel
    exact absurd ((hall ab ba ab_same _).mp hab) (by decide +kernel)
  · intro hall
    have hab : encodeNode sampleLib ab "dag-cbor" = .ok [0xA2, 0x61, 0x61, 1, 0x61, 0x62, 2] := by
      decide +kernel
    exact absurd ((hall ab ba ab_same _).mp hab) (by decide +kernel)

end Sample

end IpfsLite.Ipld
