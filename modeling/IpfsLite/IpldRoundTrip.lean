import IpfsLite.DagUtils
import IpfsLite.IpldCanonical
import IpfsLite.IpldReading

namespace IpfsLite.Ipld

open Ipns PyInt PyStr PyValue

structure NodeLib extends IpldLib where
  dag : DagLib
  parseFloat : List Char → BitVec 64

/-- The decoders of `decode_node`, with `json.loads` written out. -/
def NodeLib.decoders (lib : NodeLib) : DagLib :=
  { lib.dag with jsonLoads := fun data => (decodeUtf8 data).bind (PyJson.jsonLoads lib.parseFloat) }

mutual

def IsNode : PyValue → Prop
  | .list items => NodeItems items
  | .dict items => KeysDistinct items ∧ NodeMembers items
  | v => isScalar v = true

def NodeItems : List PyValue → Prop
  | [] => True
  | v :: vs => IsNode v ∧ NodeItems vs

def NodeMembers : List (PyValue × PyValue) → Prop
  | [] => True
  | (k, v) :: es => (isScalar k = true ∧ IsNode v) ∧ NodeMembers es

end

/-- What a codec keeps of the keys and of the other scalars. -/
structure Keeps where
  key : PyValue → Bool
  value : PyValue → Bool

mutual

def Kept (keep : Keeps) : PyValue → Prop
  | .list items => ItemsKept keep items
  | .dict items => MembersKept keep items
  | v => keep.value v = true

def ItemsKept (keep : Keeps) : List PyValue → Prop
  | [] => True
  | v :: vs => Kept keep v ∧ ItemsKept keep vs

def MembersKept (keep : Keeps) : List (PyValue × PyValue) → Prop
  | [] => True
  | (k, v) :: es => (keep.key k = true ∧ Kept keep v) ∧ MembersKept keep es

end

def isJsonStr : PyValue → Bool
  | .str s => !s.paired
  | _ => false

def isPaired : PyValue → Bool
  | .str s => s.paired
  | _ => false

def jsonKeeps : Keeps := ⟨isJsonStr, fun v => !isPaired v⟩

def cborKeeps : Keeps := ⟨fun k => !k.isNan, fun _ => true⟩

def codecKeeps (codec : String) : Keeps := if codec = "dag-json" then jsonKeeps else cborKeeps

def Survives (lib : NodeLib) (codec : String) (node : PyValue) (data : Bytes) : Prop :=
  ∃ v, decodeNode lib.decoders data codec = .ok v ∧ pyEq (convertIpldNodes node) v = true

theorem convertValues_eq_map (es : List (PyValue × PyValue)) :
    convertValues es = es.map fun e => (e.1, convertIpldNodes e.2) := by
  induction es with
  | nil => rfl
  | cons e es ih => rw [convertValues, ih, List.map_cons]

theorem nodeMembers_iff {es : List (PyValue × PyValue)} :
    NodeMembers es ↔ ∀ e ∈ es, isScalar e.1 = true ∧ IsNode e.2 := by
  induction es with
  | nil => simp [NodeMembers]
  | cons e es ih => rw [NodeMembers, ih, List.forall_mem_cons]

theorem membersKept_iff {keep : Keeps} {es : List (PyValue × PyValue)} :
    MembersKept keep es ↔ ∀ e ∈ es, keep.key e.1 = true ∧ Kept keep e.2 := by
  induction es with
  | nil => simp [MembersKept]
  | cons e es ih => rw [MembersKept, ih, List.forall_mem_cons]

theorem pyEq_dict {es fs : List (PyValue × PyValue)} :
    pyEq (.dict es) (.dict fs) = true ↔ es.length = fs.length ∧ eqDict es fs = true := by
  simp [pyEq]

theorem pyEq_self {v : PyValue} (h : isScalar v = true) : pyEq v v = !v.isNan := by
  cases v with
  | float bits => cases hn : numeric (.float bits) <;> simp [pyEq, isNan, hn]
  | none => rfl
  | bool b => simp [pyEq, isNan, numeric, number?]
  | int i => simp [pyEq, isNan, numeric, number?]
  | str s => simp [pyEq, isNan, text?]
  | ipldNode s => simp [pyEq, isNan, text?]
  | bytes b => simp [pyEq, isNan, eqBytes]
  | _ => exact absurd h (by simp [isScalar])

section Json

variable {lib : IpldLib}

theorem jsonStoredMembers_eq_map (es : List (PyValue × PyValue)) :
    jsonStoredMembers lib es = es.map fun e => (.str (keyText lib e.1).joined, jsonStored lib e.2) := by
  induction es with
  | nil => rfl
  | cons e es ih => rw [jsonStoredMembers, ih, List.map_cons]

theorem pyEq_joined (s : PyStr) : pyEq (.str s) (.str s.joined) = !s.paired := by
  by_cases h : s.joined = s
  · simp [pyEq, text?, h, joined_eq_iff.mp h]
  · have hpaired : s.paired = true := by simpa [joined_eq_iff] using h
    simp [pyEq, text?, h, hpaired]

theorem pyEq_changed {k : PyValue} {s : PyStr} (hscalar : isScalar k = true) (hnode : ∀ t, k ≠ .ipldNode t)
    (h : isJsonStr k = false) (hs : s.paired = false) : pyEq k (.str s) = false := by
  cases k with
  | str t =>
    have hne : s ≠ t := by
      rintro rfl
      simp [isJsonStr, hs] at h
    simp [pyEq, text?, hne]
  | ipldNode t => exact absurd rfl (hnode t)
  | none | bytes b => rfl
  | bool b => simp [pyEq, numeric, number?]
  | int i => simp [pyEq, numeric, number?]
  | float bits =>
    have hstr : numeric (.str s) = Option.none := rfl
    cases hn : numeric (.float bits) <;> simp [pyEq, hn, hstr]
  | _ => exact absurd hscalar (by simp [isScalar])

theorem json_dict {es : List (PyValue × PyValue)} (hdistinct : KeysDistinct es)
    (hkeys : ∀ e ∈ es, isScalar e.1 = true ∧ ∀ t, e.1 ≠ .ipldNode t)
    (hvalues : ∀ e ∈ es, pyEq (convertIpldNodes e.2) (jsonStored lib e.2) = true ↔ Kept jsonKeeps e.2) :
    pyEq (convertIpldNodes (.dict es)) (jsonStored lib (.dict es)) = true ↔ Kept jsonKeeps (.dict es) := by
  change pyEq (.dict (convertValues es)) (.dict (dictOf (jsonStoredMembers lib es))) = true ↔
    MembersKept jsonKeeps es
  rw [convertValues_eq_map, jsonStoredMembers_eq_map, membersKept_iff, pyEq_dict]
  by_cases hall : ∀ e ∈ es, isJsonStr e.1 = true
  · have hstored : (es.map fun e => (PyValue.str (keyText lib e.1).joined, jsonStored lib e.2)) =
        es.map fun e => (e.1, jsonStored lib e.2) := by
      apply List.map_congr_left
      rintro ⟨k, v⟩ he
      have hk := hall _ he
      cases k with
      | str t =>
        have hjoined : t.joined = t := joined_eq_iff.mpr (by simpa [isJsonStr] using hk)
        exact congrArg (fun s => (PyValue.str s, jsonStored lib v)) hjoined
      | _ => exact absurd hk (by simp [isJsonStr])
    rw [hstored, dictOf_distinct (keysDistinct_map.mpr hdistinct),
      eqDict_map_iff (keysDistinct_map.mpr hdistinct) fun _ _ _ _ => rfl]
    constructor
    · intro h e he
      exact ⟨hall e he, (hvalues e he).mp (h.2 e he).2⟩
    · intro h
      refine ⟨by simp, fun e he => ⟨?_, (hvalues e he).mpr (h e he).2⟩⟩
      have hstr := hall e he
      cases hk : e.1 with
      | str t => simp [pyEq, text?]
      | _ => exact absurd hstr (by simp [hk, isJsonStr])
  · obtain ⟨e, he, hne⟩ := not_forall₂.mp hall
    constructor
    · rintro ⟨-, hdict⟩
      obtain ⟨f, hfind, -⟩ := eqDict_iff.mp hdict (e.1, convertIpldNodes e.2) (List.mem_map_of_mem he)
      have heq : pyEq e.1 f.1 = true := by simpa using List.find?_some hfind
      obtain ⟨g, hg, hkey⟩ := dictOf_keys f (List.mem_of_find?_eq_some hfind)
      obtain ⟨a, -, rfl⟩ := List.mem_map.mp hg
      rw [hkey, pyEq_changed (hkeys e he).1 (hkeys e he).2 (by simpa using hne) (paired_joined _)] at heq
      contradiction
    · intro h
      exact absurd (h e he).1 hne

theorem isNan_finite {bits : BitVec 64} (h : isFinite bits = true) : isNan (.float bits) = false := by
  obtain ⟨q, hq⟩ := Option.isSome_iff_exists.mp h
  simp [isNan, numeric, hq]

theorem pyEq_scalar {v : PyValue} (h : isScalar v = true) (hn : v.isNan = false) : pyEq v v = true := by
  rw [pyEq_self h, hn]
  rfl

mutual

theorem json_survives : (v : PyValue) → IsNode v → (∃ cs, jsonText lib v = .ok cs) →
    (pyEq (convertIpldNodes v) (jsonStored lib v) = true ↔ Kept jsonKeeps v)
  | .none, _, _ | .bool _, _, _ | .int _, _, _ | .ipldNode _, _, _ => iff_of_true (pyEq_scalar rfl rfl) rfl
  | .str s, _, _ => by
    change pyEq (.str s) (.str s.joined) = true ↔ (!s.paired) = true
    rw [pyEq_joined]
  | .float bits, _, htext => by
    obtain ⟨cs, hcs⟩ := htext
    obtain ⟨s, hs, -⟩ := map_ok.mp hcs
    unfold floatStr at hs
    split at hs
    · next hfinite => exact iff_of_true (pyEq_scalar rfl (isNan_finite hfinite)) rfl
    · contradiction
  | .bytes _, _, htext => by
    obtain ⟨cs, hcs⟩ := htext
    cases hcs
  | .list items, h, htext => by
    obtain ⟨cs, hcs⟩ := htext
    obtain ⟨ts, hts, -⟩ := bind_ok.mp hcs
    exact json_items items h ⟨ts, hts⟩
  | .dict items, h, htext => by
    obtain ⟨cs, hcs⟩ := htext
    obtain ⟨ts, hts, -⟩ := bind_ok.mp hcs
    have hmembers := json_members items h.2 ⟨ts, hts⟩
    apply json_dict h.1
    · intro e he
      exact ⟨(nodeMembers_iff.mp h.2 e he).1, (hmembers e he).1⟩
    · intro e he
      exact (hmembers e he).2
  | .tuple _, h, _ | .number _, h, _ | .set _, h, _ | .cborTag .., h, _ | .object _, h, _ =>
    absurd h (by simp [IsNode, isScalar])

theorem json_items : (vs : List PyValue) → NodeItems vs → (∃ ts, jsonTexts lib vs = .ok ts) →
    (eqItems (convertItems vs) (jsonStoredItems lib vs) = true ↔ ItemsKept jsonKeeps vs)
  | [], _, _ => iff_of_true rfl trivial
  | v :: vs, h, htexts => by
    obtain ⟨ts, hts⟩ := htexts
    obtain ⟨text, htext, hts⟩ := bind_ok.mp hts
    obtain ⟨texts, htexts, -⟩ := bind_ok.mp hts
    have hv := json_survives v h.1 ⟨text, htext⟩
    have hvs := json_items vs h.2 ⟨texts, htexts⟩
    simp only [convertItems, jsonStoredItems, eqItems, Bool.and_eq_true, ItemsKept, hv, hvs]

theorem json_members : (es : List (PyValue × PyValue)) → NodeMembers es →
    (∃ ts, jsonItems lib es = .ok ts) → ∀ e ∈ es, (∀ t, e.1 ≠ .ipldNode t) ∧
      (pyEq (convertIpldNodes e.2) (jsonStored lib e.2) = true ↔ Kept jsonKeeps e.2)
  | [], _, _ => by simp
  | (k, v) :: es, h, htexts => by
    obtain ⟨ts, hts⟩ := htexts
    obtain ⟨key, hkey, hts⟩ := bind_ok.mp hts
    obtain ⟨text, htext, hts⟩ := bind_ok.mp hts
    obtain ⟨texts, htexts, -⟩ := bind_ok.mp hts
    have hrest := json_members es h.2 ⟨texts, htexts⟩
    intro e he
    rcases List.mem_cons.mp he with rfl | he
    · refine ⟨?_, json_survives v h.1.2 ⟨text, htext⟩⟩
      rintro t rfl
      cases hkey
    · exact hrest e he

end

end Json

section Cbor

mutual

def CborDoc.value : CborDoc → PyValue
  | .null => .none
  | .bool b => .bool b
  | .int i => .int i
  | .float bits => .float bits
  | .str s => .str s
  | .bytes b => .bytes b
  | .array items => .list (CborDoc.values items)
  | .map items => .dict (dictOf (CborDoc.entries items))

def CborDoc.values : List CborDoc → List PyValue
  | [] => []
  | d :: ds => CborDoc.value d :: CborDoc.values ds

def CborDoc.entries : List (CborDoc × CborDoc) → List (PyValue × PyValue)
  | [] => []
  | (k, d) :: es => (CborDoc.value k, CborDoc.value d) :: CborDoc.entries es

end

def CborDoc.isScalar : CborDoc → Bool
  | .array _ | .map _ => false
  | _ => true

mutual

def ScalarKeys : CborDoc → Prop
  | .array items => ScalarKeysItems items
  | .map items => ScalarKeysEntries items
  | _ => True

def ScalarKeysItems : List CborDoc → Prop
  | [] => True
  | d :: ds => ScalarKeys d ∧ ScalarKeysItems ds

def ScalarKeysEntries : List (CborDoc × CborDoc) → Prop
  | [] => True
  | (k, d) :: es => (k.isScalar = true ∧ ScalarKeys d) ∧ ScalarKeysEntries es

end

/-- `cbor2` reads a document whose keys are scalars, the items of a map one after the other. -/
def CborReads (lib : NodeLib) (enc : CborDoc → Bytes) : Prop :=
  ∀ d, ScalarKeys d → lib.dag.cborLoads (enc d) = .ok d.value

mutual

def cborStored : PyValue → PyValue
  | .ipldNode cidStr => .str cidStr
  | .float bits => .float (cborFloat bits)
  | .list items => .list (cborStoredItems items)
  | .dict items => .dict (dictOf (cborStoredMembers items))
  | v => v

def cborStoredItems : List PyValue → List PyValue
  | [] => []
  | v :: vs => cborStored v :: cborStoredItems vs

def cborStoredMembers : List (PyValue × PyValue) → List (PyValue × PyValue)
  | [] => []
  | (k, v) :: es => (cborStored k, cborStored v) :: cborStoredMembers es

end

theorem cborStoredMembers_eq_map (es : List (PyValue × PyValue)) :
    cborStoredMembers es = es.map fun e => (cborStored e.1, cborStored e.2) := by
  induction es with
  | nil => rfl
  | cons e es ih => rw [cborStoredMembers, ih, List.map_cons]

theorem cborDoc_key {k : PyValue} {d : CborDoc} (hk : isScalar k = true) (h : cborDoc k = some d) :
    d.isScalar = true ∧ d.value = cborStored k := by
  cases k with
  | ipldNode s => cases h
  | none | bool b | int i | float bits | bytes b =>
    obtain rfl := Option.some.inj h
    exact ⟨rfl, rfl⟩
  | str s =>
    cases s with
    | text s =>
      obtain rfl := Option.some.inj h
      exact ⟨rfl, rfl⟩
    | surrogates cs => cases h
  | _ => cases hk

mutual

theorem cborDoc_value : (v : PyValue) → IsNode v → ∀ d, cborDoc (convertIpldNodes v) = some d →
    ScalarKeys d ∧ d.value = cborStored v
  | .none, _ | .bool _, _ | .int _, _ | .float _, _ | .str (.text _), _ | .bytes _, _ | .ipldNode _, _ => by
    intro d h
    obtain rfl := Option.some.inj h
    exact ⟨trivial, rfl⟩
  | .str (.surrogates _), _ => by
    intro d h
    cases h
  | .list items, h => by
    intro d hd
    obtain ⟨ds, hds, rfl⟩ := Option.map_eq_some_iff.mp hd
    obtain ⟨hkeys, hvalues⟩ := cborDocs_values items h ds hds
    exact ⟨hkeys, congrArg PyValue.list hvalues⟩
  | .dict items, h => by
    intro d hd
    obtain ⟨es, hes, rfl⟩ := Option.map_eq_some_iff.mp hd
    obtain ⟨hkeys, hentries⟩ := cborMembers_entries items h.2 es hes
    exact ⟨hkeys, congrArg (fun es => PyValue.dict (dictOf es)) hentries⟩
  | .tuple _, h | .number _, h | .set _, h | .cborTag .., h | .object _, h =>
    absurd h (by simp [IsNode, isScalar])

theorem cborDocs_values : (vs : List PyValue) → NodeItems vs → ∀ ds, cborDocs (convertItems vs) = some ds →
    ScalarKeysItems ds ∧ CborDoc.values ds = cborStoredItems vs
  | [], _ => by
    intro ds h
    obtain rfl := Option.some.inj h
    exact ⟨trivial, rfl⟩
  | v :: vs, h => by
    intro ds hds
    obtain ⟨d, hd, hds⟩ := Option.bind_eq_some_iff.mp hds
    obtain ⟨rest, hrest, rfl⟩ := Option.map_eq_some_iff.mp hds
    obtain ⟨hkeys, hvalue⟩ := cborDoc_value v h.1 d hd
    obtain ⟨hkeys', hvalues⟩ := cborDocs_values vs h.2 rest hrest
    exact ⟨⟨hkeys, hkeys'⟩, by rw [CborDoc.values, cborStoredItems, hvalue, hvalues]⟩

theorem cborMembers_entries : (es : List (PyValue × PyValue)) → NodeMembers es →
    ∀ ds, cborMembers (convertValues es) = some ds →
      ScalarKeysEntries ds ∧ CborDoc.entries ds = cborStoredMembers es
  | [], _ => by
    intro ds h
    obtain rfl := Option.some.inj h
    exact ⟨trivial, rfl⟩
  | (k, v) :: es, h => by
    intro ds hds
    obtain ⟨key, hkey, hds⟩ := Option.bind_eq_some_iff.mp hds
    obtain ⟨d, hd, hds⟩ := Option.bind_eq_some_iff.mp hds
    obtain ⟨rest, hrest, rfl⟩ := Option.map_eq_some_iff.mp hds
    obtain ⟨hscalar, hname⟩ := cborDoc_key h.1.1 hkey
    obtain ⟨hkeys, hvalue⟩ := cborDoc_value v h.1.2 d hd
    obtain ⟨hkeys', hentries⟩ := cborMembers_entries es h.2 rest hrest
    exact ⟨⟨⟨hscalar, hkeys⟩, hkeys'⟩, by rw [CborDoc.entries, cborStoredMembers, hname, hvalue, hentries]⟩

end

theorem numeric_cborFloat (bits : BitVec 64) : numeric (.float (cborFloat bits)) = numeric (.float bits) := by
  unfold cborFloat
  split
  · next h =>
    have hcanonical : numeric (.float 0x7FF8000000000000) = Option.none := by decide
    have hnone : floatNumber bits = Option.none := by simpa [isFinite] using h.1
    rw [hcanonical]
    simp only [numeric, hnone, if_neg h.2]
  · rfl

theorem pyEq_cborStored_right (k : PyValue) {l : PyValue} (hl : isScalar l = true) :
    pyEq k (cborStored l) = pyEq k l := by
  cases l with
  | float bits =>
    cases k <;> first
      | rfl
      | simp only [pyEq, cborStored, numeric_cborFloat]
  | ipldNode s => cases k <;> rfl
  | none | bool b | int i | str s | bytes b => rfl
  | _ => cases hl

theorem pyEq_cborStored_left {k : PyValue} (hk : isScalar k = true) (w : PyValue) :
    pyEq (cborStored k) w = pyEq k w := by
  cases k with
  | float bits => simp only [pyEq, cborStored, numeric_cborFloat]
  | ipldNode s | none | bool b | int i | str s | bytes b => rfl
  | _ => cases hk

theorem cbor_dict {es : List (PyValue × PyValue)} (hdistinct : KeysDistinct es)
    (hkeys : ∀ e ∈ es, isScalar e.1 = true)
    (hvalues : ∀ e ∈ es, pyEq (convertIpldNodes e.2) (cborStored e.2) = true ↔ Kept cborKeeps e.2) :
    pyEq (convertIpldNodes (.dict es)) (cborStored (.dict es)) = true ↔ Kept cborKeeps (.dict es) := by
  change pyEq (.dict (convertValues es)) (.dict (dictOf (cborStoredMembers es))) = true ↔
    MembersKept cborKeeps es
  have hstored : KeysDistinct (es.map fun e => (cborStored e.1, cborStored e.2)) := by
    apply keysDistinct_map.mpr
    apply List.Pairwise.imp_of_mem _ hdistinct
    intro a b ha hb hab
    rw [pyEq_cborStored_left (hkeys a ha), pyEq_cborStored_left (hkeys b hb),
      pyEq_cborStored_right _ (hkeys a ha), pyEq_cborStored_right _ (hkeys b hb)]
    exact hab
  rw [convertValues_eq_map, cborStoredMembers_eq_map, dictOf_distinct hstored, membersKept_iff, pyEq_dict,
    eqDict_map_iff (keysDistinct_map.mpr hdistinct)
      fun _ _ b hb => pyEq_cborStored_right _ (hkeys b hb)]
  have hself (e : PyValue × PyValue) (he : e ∈ es) : pyEq e.1 e.1 = cborKeeps.key e.1 := pyEq_self (hkeys e he)
  constructor
  · intro h e he
    obtain ⟨hkey, hvalue⟩ := h.2 e he
    exact ⟨by rw [← hself e he, hkey], (hvalues e he).mp hvalue⟩
  · intro h
    refine ⟨by simp, fun e he => ⟨?_, (hvalues e he).mpr (h e he).2⟩⟩
    rw [hself e he, (h e he).1]

mutual

theorem cbor_survives : (v : PyValue) → IsNode v → checkNan v = .ok () →
    (pyEq (convertIpldNodes v) (cborStored v) = true ↔ Kept cborKeeps v)
  | .none, _, _ | .bool _, _, _ | .int _, _, _ | .str _, _, _ | .bytes _, _, _ | .ipldNode _, _, _ =>
    iff_of_true (pyEq_scalar rfl rfl) rfl
  | .float bits, _, h => by
    have hfinite : isFinite bits = true := by
      by_contra hinfinite
      rw [checkNan, if_neg hinfinite] at h
      cases h
    refine iff_of_true ?_ rfl
    exact (pyEq_cborStored_right _ rfl).trans (pyEq_scalar rfl (isNan_finite hfinite))
  | .list items, h, hnan => cbor_items items h hnan
  | .dict items, h, hnan => by
    apply cbor_dict h.1
    · intro e he
      exact (nodeMembers_iff.mp h.2 e he).1
    · exact cbor_members items h.2 hnan
  | .tuple _, h, _ | .number _, h, _ | .set _, h, _ | .cborTag .., h, _ | .object _, h, _ =>
    absurd h (by simp [IsNode, isScalar])

theorem cbor_items : (vs : List PyValue) → NodeItems vs → checkNanItems vs = .ok () →
    (eqItems (convertItems vs) (cborStoredItems vs) = true ↔ ItemsKept cborKeeps vs)
  | [], _, _ => iff_of_true rfl trivial
  | v :: vs, h, hnan => by
    obtain ⟨u, hv, hvs⟩ := bind_ok.mp hnan
    have hfirst := cbor_survives v h.1 hv
    have hrest := cbor_items vs h.2 hvs
    simp only [convertItems, cborStoredItems, eqItems, Bool.and_eq_true, ItemsKept, hfirst, hrest]

theorem cbor_members : (es : List (PyValue × PyValue)) → NodeMembers es → checkNanValues es = .ok () →
    ∀ e ∈ es, pyEq (convertIpldNodes e.2) (cborStored e.2) = true ↔ Kept cborKeeps e.2
  | [], _, _ => by simp
  | (k, v) :: es, h, hnan => by
    obtain ⟨u, hv, hvs⟩ := bind_ok.mp hnan
    have hrest := cbor_members es h.2 hvs
    intro e he
    rcases List.mem_cons.mp he with rfl | he
    · exact cbor_survives v h.1.2 hv
    · exact hrest e he

end

end Cbor

theorem built_scalar {v : PyValue} (h : isScalar v = true) : Built v := by
  cases v with
  | none | bool b | int i | float bits | str s | bytes b | ipldNode s => trivial
  | _ => cases h

mutual

theorem IsNode.built : (v : PyValue) → IsNode v → Built v
  | .list items, h => NodeItems.built items h
  | .dict items, h => NodeMembers.built items h.2
  | .none, _ | .bool _, _ | .int _, _ | .float _, _ | .str _, _ | .bytes _, _ | .ipldNode _, _ => trivial
  | .tuple _, h | .number _, h | .set _, h | .cborTag .., h | .object _, h =>
    absurd h (by simp [IsNode, isScalar])

theorem NodeItems.built : (vs : List PyValue) → NodeItems vs → BuiltItems vs
  | [], _ => trivial
  | v :: vs, h => ⟨IsNode.built v h.1, NodeItems.built vs h.2⟩

theorem NodeMembers.built : (es : List (PyValue × PyValue)) → NodeMembers es → BuiltDict es
  | [], _ => trivial
  | (_, v) :: es, h => ⟨⟨built_scalar h.1.1, IsNode.built v h.1.2⟩, NodeMembers.built es h.2⟩

end

theorem encodeNode_json {lib : IpldLib} {node : PyValue} {data : Bytes}
    (h : encodeNode lib node "dag-json" = .ok data) :
    ∃ text, jsonDumps lib node = .ok text ∧ encodeUtf8 text = data := by
  change (checkNan node).bind (fun _ => (jsonDumps lib node).map encodeUtf8) = .ok data at h
  obtain ⟨u, -, hdumps⟩ := bind_ok.mp h
  exact map_ok.mp hdumps

theorem encodeNode_cbor {lib : IpldLib} {node : PyValue} {data : Bytes}
    (h : encodeNode lib node "dag-cbor" = .ok data) :
    checkNan node = .ok () ∧ lib.cborDumps (convertIpldNodes node) = .ok data := by
  change (checkNan node).bind (fun _ => lib.cborDumps (convertIpldNodes node)) = .ok data at h
  obtain ⟨u, hnan, hdumps⟩ := bind_ok.mp h
  exact ⟨hnan, hdumps⟩

theorem decodeNode_json {lib : NodeLib} (hf : FloatReads lib.toIpldLib lib.parseFloat) {node : PyValue}
    {text : String} (h : jsonDumps lib.toIpldLib node = .ok text) :
    decodeNode lib.decoders (encodeUtf8 text) "dag-json" = .ok (jsonStored lib.toIpldLib node) := by
  rw [decodeNode, if_pos rfl]
  change (decodeUtf8 (encodeUtf8 text)).bind (PyJson.jsonLoads lib.parseFloat) = _
  rw [decodeUtf8_encodeUtf8]
  exact jsonLoads_dumps hf h

theorem decodeNode_cbor {lib : NodeLib} {enc : CborDoc → Bytes} (hw : CborWrites lib.toIpldLib enc)
    (hr : CborReads lib enc) {node : PyValue} (hnode : IsNode node) {data : Bytes}
    (h : lib.cborDumps (convertIpldNodes node) = .ok data) :
    decodeNode lib.decoders data "dag-cbor" = .ok (cborStored node) := by
  have hbuilt : Built (convertIpldNodes node) := built_convert node (IsNode.built node hnode)
  cases hdoc : cborDoc (convertIpldNodes node) with
  | none =>
    obtain ⟨e, he⟩ := hw.fails _ hbuilt hdoc
    rw [he] at h
    contradiction
  | some d =>
    obtain rfl := Except.ok.inj ((hw.dumps _ d hbuilt hdoc).symm.trans h)
    obtain ⟨hkeys, hvalue⟩ := cborDoc_value node hnode d hdoc
    rw [decodeNode, if_neg (by decide), if_pos (.inl rfl), ← hvalue]
    exact hr d hkeys

theorem survives_iff {lib : NodeLib} {codec : String} {node v : PyValue} {data : Bytes}
    (hv : decodeNode lib.decoders data codec = .ok v) :
    Survives lib codec node data ↔ pyEq (convertIpldNodes node) v = true := by
  constructor
  · rintro ⟨w, hw, heq⟩
    rwa [Except.ok.inj (hv.symm.trans hw)]
  · intro heq
    exact ⟨v, hv, heq⟩

theorem decodeNode_encodeNode_iff (lib : NodeLib) (enc : CborDoc → Bytes)
    (hf : FloatReads lib.toIpldLib lib.parseFloat) (hw : CborWrites lib.toIpldLib enc)
    (hr : CborReads lib enc) (codec : String) (hcodec : codec = "dag-json" ∨ codec = "dag-cbor")
    (node : PyValue) (hnode : IsNode node) (data : Bytes)
    (hdata : encodeNode lib.toIpldLib node codec = .ok data) :
    Survives lib codec node data ↔ Kept (codecKeeps codec) node := by
  rcases hcodec with rfl | rfl
  · obtain ⟨text, htext, rfl⟩ := encodeNode_json hdata
    obtain ⟨cs, hcs, -⟩ := map_ok.mp htext
    rw [survives_iff (decodeNode_json hf htext)]
    exact json_survives node hnode ⟨cs, hcs⟩
  · obtain ⟨hnan, hdumps⟩ := encodeNode_cbor hdata
    rw [survives_iff (decodeNode_cbor hw hr hnode hdumps)]
    exact cbor_survives node hnode hnan

section Sample

open Classical in
noncomputable def sampleCborLoads (data : Bytes) : Except PyError PyValue :=
  if h : ∃ d, item d = data then .ok h.choose.value else .error ⟨.cborError, "cannot decode"⟩

noncomputable def sampleNodes : NodeLib where
  toIpldLib := sampleLib
  dag := { DagLib.ofTable [] [] [] [] with cborLoads := sampleCborLoads }
  parseFloat cs := .ofNat 64 (Nat.ofDigitChars 10 (cs.takeWhile Char.isDigit) 0)

theorem sampleNodes_floatReads : FloatReads sampleNodes.toIpldLib sampleNodes.parseFloat where
  text x := by
    refine ⟨Nat.toDigits 10 x.1.toNat, ['.', '0'], [], ?_, .inl (isWhole_toDigits _), ?_, .inl rfl, by simp⟩
    · simp [sampleNodes, sampleLib, Nat.toList_repr]
    · exact .inr ⟨['0'], rfl, by simp, List.all_eq_true.mp (by decide)⟩
  parse x := by
    have htext : (sampleNodes.floatRepr x).toList = Nat.toDigits 10 x.1.toNat ++ ['.', '0'] := by
      simp [sampleNodes, sampleLib, Nat.toList_repr]
    have hdigits := toDigits_isDigit x.1.toNat
    have hpoint : NoDigit ['.', '0'] := noDigit_cons (by decide) _
    rw [htext]
    simp [sampleNodes, (span_digits hdigits hpoint).1, Nat.ofDigitChars_ten_toDigits]

theorem sampleNodes_cborReads : CborReads sampleNodes item := by
  intro d _
  have h : ∃ e, item e = item d := ⟨d, rfl⟩
  have hchoose : h.choose = d := sampleLib_cborWrites.injective h.choose_spec
  change sampleCborLoads (item d) = _
  rw [sampleCborLoads, dif_pos h, hchoose]

/-- `{'name': 'a', 'parts': [-7, [True, None], {'link': ..., 'size': 1}]}` -/
def nested : PyValue :=
  .dict [(.str "name", .str "a"), (.str "parts", .list [.int (-7), .list [.bool true, .none],
    .dict [(.str "link", .ipldNode KnownCid.rawA.str), (.str "size", .int 1)]])]

theorem nested_isNode : IsNode nested := by
  refine ⟨List.pairwise_pair.mpr (by decide), ⟨rfl, rfl⟩, ⟨rfl, ?_⟩, trivial⟩
  refine ⟨rfl, ⟨rfl, rfl, trivial⟩, ⟨?_, ⟨rfl, rfl⟩, ⟨rfl, rfl⟩, trivial⟩, trivial⟩
  exact List.pairwise_pair.mpr (by decide)

def nestedCbor : Bytes :=
  [0xA2, 0x64, 110, 97, 109, 101, 0x61, 97, 0x65, 112, 97, 114, 116, 115, 0x83, 0x26, 0x82, 0xF5, 0xF6, 0xA2, 0x64,
    108, 105, 110, 107, 0x78, 59] ++ encodeUtf8 KnownCid.rawA.str ++ [0x64, 115, 105, 122, 101, 1]

theorem decodeNode_encodeNode_nested :
    Survives sampleNodes "dag-json" nested (encodeUtf8
      ("\x7b\"name\":\"a\",\"parts\":[-7,[true,null],\x7b\"link\":\"" ++ KnownCid.rawA.str ++ "\",\"size\":1\x7d]\x7d")) ∧
    Survives sampleNodes "dag-cbor" nested nestedCbor := by
  have hiff (codec : String) (hcodec : codec = "dag-json" ∨ codec = "dag-cbor") (data : Bytes) :=
    decodeNode_encodeNode_iff sampleNodes item sampleNodes_floatReads sampleLib_cborWrites sampleNodes_cborReads codec
      hcodec nested nested_isNode data
  constructor
  · apply (hiff "dag-json" (.inl rfl) _ (by decide +kernel)).mpr
    exact ⟨⟨rfl, rfl⟩, ⟨rfl, rfl, ⟨rfl, rfl, trivial⟩, ⟨⟨rfl, rfl⟩, ⟨rfl, rfl⟩, trivial⟩, trivial⟩, trivial⟩
  · apply (hiff "dag-cbor" (.inr rfl) _ (by decide +kernel)).mpr
    exact ⟨⟨rfl, rfl⟩, ⟨rfl, rfl, ⟨rfl, rfl, trivial⟩, ⟨⟨rfl, rfl⟩, ⟨rfl, rfl⟩, trivial⟩, trivial⟩, trivial⟩

/-- U+D83D and U+DE00, the halves of an emoji, as two code points. -/
def halves : PyStr := .surrogates ⟨[.surrogate 61, .surrogate 1536], rfl⟩

def halvesNode : PyValue := .dict [(.str "a", .str halves)]

theorem halvesNode_isNode : IsNode halvesNode := ⟨List.pairwise_singleton _ _, ⟨rfl, rfl⟩, trivial⟩

def clash : PyValue := .dict [(.int 1, .str "a"), (.str "1", .str "b")]

def nanKey : PyValue := .dict [(.float 0x7FF8000000000000, .int 1)]

theorem clash_isNode : IsNode clash := by
  refine ⟨?_, ⟨rfl, rfl⟩, ⟨rfl, rfl⟩, trivial⟩
  apply List.pairwise_pair.mpr
  decide

theorem nanKey_isNode : IsNode nanKey := ⟨List.pairwise_singleton _ _, ⟨rfl, rfl⟩, trivial⟩

theorem decodeNode_encodeNode_fails :
    (IsNode clash ∧ encodeNode sampleLib clash "dag-json" =
        .ok (encodeUtf8 "\x7b\"1\":\"a\",\"1\":\"b\"\x7d") ∧
      ¬Survives sampleNodes "dag-json" clash (encodeUtf8 "\x7b\"1\":\"a\",\"1\":\"b\"\x7d")) ∧
    (IsNode nanKey ∧ encodeNode sampleLib nanKey "dag-cbor" =
        .ok [0xA1, 0xF9, 0x7E, 0, 1] ∧ ¬Survives sampleNodes "dag-cbor" nanKey [0xA1, 0xF9, 0x7E, 0, 1]) ∧
    (IsNode halvesNode ∧ encodeNode sampleLib halvesNode "dag-json" =
        .ok (encodeUtf8 "\x7b\"a\":\"\\ud83d\\ude00\"\x7d") ∧
      ¬Survives sampleNodes "dag-json" halvesNode (encodeUtf8 "\x7b\"a\":\"\\ud83d\\ude00\"\x7d")) := by
  refine ⟨⟨clash_isNode, by decide +kernel, ?_⟩, ⟨nanKey_isNode, by decide +kernel, ?_⟩,
    ⟨halvesNode_isNode, by decide +kernel, ?_⟩⟩
  · have htext : jsonDumps sampleNodes.toIpldLib clash = .ok "\x7b\"1\":\"a\",\"1\":\"b\"\x7d" := rfl
    rw [survives_iff (decodeNode_json sampleNodes_floatReads htext)]
    decide
  · have hdumps : sampleNodes.cborDumps (convertIpldNodes nanKey) =
        .ok [0xA1, 0xF9, 0x7E, 0, 1] := rfl
    rw [survives_iff (decodeNode_cbor sampleLib_cborWrites sampleNodes_cborReads nanKey_isNode hdumps)]
    decide
  · have htext : jsonDumps sampleNodes.toIpldLib halvesNode = .ok "\x7b\"a\":\"\\ud83d\\ude00\"\x7d" := rfl
    rw [survives_iff (decodeNode_json sampleNodes_floatReads htext)]
    decide

end Sample

end IpfsLite.Ipld
