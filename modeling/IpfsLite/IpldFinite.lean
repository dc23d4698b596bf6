import IpfsLite.IpldRoundTrip

namespace IpfsLite.Ipld

open Ipns PyValue

mutual

def floats : PyValue → List (BitVec 64)
  | .float bits => [bits]
  | .list items | .tuple items => itemFloats items
  | .dict items => memberFloats items
  | _ => []

def itemFloats : List PyValue → List (BitVec 64)
  | [] => []
  | v :: vs => floats v ++ itemFloats vs

def memberFloats : List (PyValue × PyValue) → List (BitVec 64)
  | [] => []
  | (k, v) :: es => floats k ++ (floats v ++ memberFloats es)

end

def AllFinite (bs : List (BitVec 64)) : Prop := ∀ bits ∈ bs, isFinite bits = true

mutual

/-- What `_check_nan` passes over: tuples and keys. -/
def passedOver : PyValue → List PyValue
  | .tuple items => [.tuple items]
  | .list items => itemsPassedOver items
  | .dict items => membersPassedOver items
  | _ => []

def itemsPassedOver : List PyValue → List PyValue
  | [] => []
  | v :: vs => passedOver v ++ itemsPassedOver vs

def membersPassedOver : List (PyValue × PyValue) → List PyValue
  | [] => []
  | (k, v) :: es => k :: (passedOver v ++ membersPassedOver es)

end

section Documents

mutual

def JsonDoc.floats : JsonDoc → List (BitVec 64)
  | .float x => [x.1]
  | .array items => JsonDoc.itemFloats items
  | .object items => JsonDoc.memberFloats items
  | _ => []

def JsonDoc.itemFloats : List JsonDoc → List (BitVec 64)
  | [] => []
  | d :: ds => JsonDoc.floats d ++ JsonDoc.itemFloats ds

def JsonDoc.memberFloats : List (JsonStr × JsonDoc) → List (BitVec 64)
  | [] => []
  | (_, d) :: es => JsonDoc.floats d ++ JsonDoc.memberFloats es

end

mutual

def CborDoc.floats : CborDoc → List (BitVec 64)
  | .float bits => [bits]
  | .array items => CborDoc.itemFloats items
  | .map items => CborDoc.memberFloats items
  | _ => []

def CborDoc.itemFloats : List CborDoc → List (BitVec 64)
  | [] => []
  | d :: ds => CborDoc.floats d ++ CborDoc.itemFloats ds

def CborDoc.memberFloats : List (CborDoc × CborDoc) → List (BitVec 64)
  | [] => []
  | (k, d) :: es => CborDoc.floats k ++ (CborDoc.floats d ++ CborDoc.memberFloats es)

end

end Documents

def documentFloats : JsonDoc ⊕ CborDoc → List (BitVec 64) := Sum.elim JsonDoc.floats CborDoc.floats

def EncodesFinite (lib : IpldLib) (enc : CborDoc → Bytes) (codec : String) (data : Bytes) : Prop :=
  ∃ d : JsonDoc ⊕ CborDoc, (d.isLeft = true ↔ codec = "dag-json") ∧ written lib enc d = data ∧
    AllFinite (documentFloats d)

variable {lib : IpldLib} {bs cs : List (BitVec 64)}

@[simp] theorem allFinite_nil : AllFinite [] := by simp [AllFinite]

@[simp] theorem allFinite_append : AllFinite (bs ++ cs) ↔ AllFinite bs ∧ AllFinite cs := List.forall_mem_append

@[simp] theorem allFinite_singleton {bits : BitVec 64} : AllFinite [bits] ↔ isFinite bits = true :=
  List.forall_mem_singleton

theorem checkNan_float {bits : BitVec 64} : checkNan (.float bits) = .ok () ↔ isFinite bits = true := by
  rw [checkNan]
  split_ifs with h
  · exact iff_of_true rfl h
  · exact iff_of_false (by simp) h

mutual

theorem allFinite_iff : (v : PyValue) → checkNan v = .ok () →
    (AllFinite (floats v) ↔ ∀ w ∈ passedOver v, AllFinite (floats w))
  | .float bits, h => by
    have hfinite := checkNan_float.mp h
    simp [floats, passedOver, AllFinite, hfinite]
  | .tuple items, _ => by simp [floats, passedOver]
  | .list items, h => itemsFinite_iff items h
  | .dict items, h => membersFinite_iff items h
  | .none, _ | .bool _, _ | .int _, _ | .number _, _ | .str _, _ | .bytes _, _ | .set _, _ | .cborTag .., _
  | .ipldNode _, _ | .object _, _ => by simp [floats, passedOver]

theorem itemsFinite_iff : (vs : List PyValue) → checkNanItems vs = .ok () →
    (AllFinite (itemFloats vs) ↔ ∀ w ∈ itemsPassedOver vs, AllFinite (floats w))
  | [], _ => by simp [itemFloats, itemsPassedOver]
  | v :: vs, h => by
    obtain ⟨u, hv, hvs⟩ := bind_ok.mp h
    have hfirst := allFinite_iff v hv
    have hrest := itemsFinite_iff vs hvs
    rw [itemFloats, itemsPassedOver, allFinite_append, hfirst, hrest, List.forall_mem_append]

theorem membersFinite_iff : (es : List (PyValue × PyValue)) → checkNanValues es = .ok () →
    (AllFinite (memberFloats es) ↔ ∀ w ∈ membersPassedOver es, AllFinite (floats w))
  | [], _ => by simp [memberFloats, membersPassedOver]
  | (k, v) :: es, h => by
    obtain ⟨u, hv, hes⟩ := bind_ok.mp h
    have hvalue := allFinite_iff v hv
    have hrest := membersFinite_iff es hes
    rw [memberFloats, membersPassedOver, allFinite_append, allFinite_append, hvalue, hrest, List.forall_mem_cons,
      List.forall_mem_append]

end

mutual

theorem floats_convert : (v : PyValue) → floats (convertIpldNodes v) = floats v
  | .list items => itemFloats_convert items
  | .dict items => memberFloats_convert items
  | .none | .bool _ | .int _ | .float _ | .number _ | .str _ | .bytes _ | .tuple _ | .set _ | .cborTag ..
  | .ipldNode _ | .object _ => rfl

theorem itemFloats_convert : (vs : List PyValue) → itemFloats (convertItems vs) = itemFloats vs
  | [] => rfl
  | v :: vs => by rw [convertItems, itemFloats, itemFloats, floats_convert v, itemFloats_convert vs]

theorem memberFloats_convert : (es : List (PyValue × PyValue)) → memberFloats (convertValues es) = memberFloats es
  | [] => rfl
  | (k, v) :: es => by rw [convertValues, memberFloats, memberFloats, floats_convert v, memberFloats_convert es]

end

theorem isFinite_cborFloat (bits : BitVec 64) : isFinite (cborFloat bits) = isFinite bits := by
  unfold cborFloat
  split_ifs with h
  · have hcanonical : isFinite 0x7FF8000000000000 = false := by decide
    rw [hcanonical, Bool.eq_false_of_not_eq_true h.1]
  · rfl

mutual

theorem cborDoc_floats : (v : PyValue) → ∀ d, cborDoc v = some d → (AllFinite d.floats ↔ AllFinite (floats v))
  | .float bits => by
    intro d h
    obtain rfl := Option.some.inj h
    simp [CborDoc.floats, floats, AllFinite, isFinite_cborFloat]
  | .list items | .tuple items => by
    intro d h
    obtain ⟨ds, hds, rfl⟩ := Option.map_eq_some_iff.mp h
    exact cborDocs_floats items ds hds
  | .dict items => by
    intro d h
    obtain ⟨ds, hds, rfl⟩ := Option.map_eq_some_iff.mp h
    exact cborMembers_floats items ds hds
  | .none | .bool _ | .int _ | .str (.text _) | .bytes _ => by
    intro d h
    obtain rfl := Option.some.inj h
    simp [CborDoc.floats, floats]
  | .str (.surrogates _) | .number _ | .set _ | .cborTag .. | .ipldNode _ | .object _ => by
    intro d h
    contradiction

theorem cborDocs_floats : (vs : List PyValue) → ∀ ds, cborDocs vs = some ds →
    (AllFinite (CborDoc.itemFloats ds) ↔ AllFinite (itemFloats vs))
  | [] => by
    intro ds h
    obtain rfl := Option.some.inj h
    exact Iff.rfl
  | v :: vs => by
    intro ds h
    obtain ⟨d, hd, h⟩ := Option.bind_eq_some_iff.mp h
    obtain ⟨rest, hrest, rfl⟩ := Option.map_eq_some_iff.mp h
    rw [CborDoc.itemFloats, itemFloats, allFinite_append, allFinite_append, cborDoc_floats v d hd,
      cborDocs_floats vs rest hrest]

theorem cborMembers_floats : (es : List (PyValue × PyValue)) → ∀ ds, cborMembers es = some ds →
    (AllFinite (CborDoc.memberFloats ds) ↔ AllFinite (memberFloats es))
  | [] => by
    intro ds h
    obtain rfl := Option.some.inj h
    exact Iff.rfl
  | (k, v) :: es => by
    intro ds h
    obtain ⟨key, hkey, h⟩ := Option.bind_eq_some_iff.mp h
    obtain ⟨d, hd, h⟩ := Option.bind_eq_some_iff.mp h
    obtain ⟨rest, hrest, rfl⟩ := Option.map_eq_some_iff.mp h
    rw [CborDoc.memberFloats, memberFloats]
    simp only [allFinite_append, cborDoc_floats k key hkey, cborDoc_floats v d hd, cborMembers_floats es rest hrest]

end

mutual

theorem jsonDoc_finite : (d : JsonDoc) → AllFinite d.floats
  | .float x => by simp [JsonDoc.floats, AllFinite, x.2]
  | .array items => jsonItems_finite items
  | .object items => jsonMembers_finite items
  | .null | .bool _ | .int _ | .str _ => by simp [JsonDoc.floats]

theorem jsonItems_finite : (ds : List JsonDoc) → AllFinite (JsonDoc.itemFloats ds)
  | [] => allFinite_nil
  | d :: ds => allFinite_append.mpr ⟨jsonDoc_finite d, jsonItems_finite ds⟩

theorem jsonMembers_finite : (es : List (JsonStr × JsonDoc)) → AllFinite (JsonDoc.memberFloats es)
  | [] => allFinite_nil
  | (_, d) :: es => allFinite_append.mpr ⟨jsonDoc_finite d, jsonMembers_finite es⟩

end

theorem floatStr_finite {bits : BitVec 64} {s : String} (h : floatStr lib bits = .ok s) : isFinite bits = true := by
  by_contra hinfinite
  rw [floatStr, dif_neg hinfinite] at h
  contradiction

theorem jsonKey_floats {k : PyValue} {key : PyStr} (h : jsonKey lib k = .ok key) : AllFinite (floats k) := by
  cases k with
  | float bits =>
    obtain ⟨s, hs, -⟩ := map_ok.mp h
    simp [floats, AllFinite, floatStr_finite hs]
  | str s | bool b | none | int i => simp [floats]
  | _ => contradiction

mutual

theorem jsonText_floats : (v : PyValue) → ∀ cs, jsonText lib v = .ok cs → AllFinite (floats v)
  | .float bits => by
    intro cs h
    obtain ⟨s, hs, -⟩ := map_ok.mp h
    simp [floats, AllFinite, floatStr_finite hs]
  | .list items | .tuple items => by
    intro cs h
    obtain ⟨ts, hts, -⟩ := bind_ok.mp h
    exact jsonTexts_floats items ts hts
  | .dict items => by
    intro cs h
    obtain ⟨ts, hts, -⟩ := bind_ok.mp h
    exact jsonItems_floats items ts hts
  | .none | .bool _ | .int _ | .number _ | .str _ | .bytes _ | .set _ | .cborTag .. | .ipldNode _ | .object _ => by
    intro cs h
    simp [floats]

theorem jsonTexts_floats : (vs : List PyValue) → ∀ ts, jsonTexts lib vs = .ok ts → AllFinite (itemFloats vs)
  | [] => by
    intro ts h
    exact allFinite_nil
  | v :: vs => by
    intro ts h
    obtain ⟨text, htext, h⟩ := bind_ok.mp h
    obtain ⟨texts, htexts, -⟩ := bind_ok.mp h
    exact allFinite_append.mpr ⟨jsonText_floats v text htext, jsonTexts_floats vs texts htexts⟩

theorem jsonItems_floats : (es : List (PyValue × PyValue)) → ∀ ts, jsonItems lib es = .ok ts →
    AllFinite (memberFloats es)
  | [] => by
    intro ts h
    exact allFinite_nil
  | (k, v) :: es => by
    intro ts h
    obtain ⟨key, hkey, h⟩ := bind_ok.mp h
    obtain ⟨text, htext, h⟩ := bind_ok.mp h
    obtain ⟨texts, htexts, -⟩ := bind_ok.mp h
    exact allFinite_append.mpr ⟨jsonKey_floats hkey,
      allFinite_append.mpr ⟨jsonText_floats v text htext, jsonItems_floats es texts htexts⟩⟩

end

variable {enc : CborDoc → Bytes} {codec : String} {node : PyValue} {data : Bytes}

theorem encodesFinite_json (h : encodeNode lib node "dag-json" = .ok data) :
    EncodesFinite lib enc "dag-json" data ∧ AllFinite (floats node) := by
  obtain ⟨text, hdumps, rfl⟩ := encodeNode_json h
  obtain ⟨cs, hcs, -⟩ := map_ok.mp hdumps
  have hdoc : ((jsonDumps lib node).map encodeUtf8).toOption =
    (jsonDoc lib node).map fun d => encodeUtf8 (String.ofList (d.text lib)) := jsonDumps_document
  rw [hdumps] at hdoc
  obtain ⟨d, -, hwritten⟩ := Option.map_eq_some_iff.mp hdoc.symm
  exact ⟨⟨.inl d, iff_of_true rfl rfl, hwritten, jsonDoc_finite d⟩, jsonText_floats node cs hcs⟩

theorem encodesFinite_cbor (hw : CborWrites lib enc) (hb : Built node)
    (h : encodeNode lib node "dag-cbor" = .ok data) :
    EncodesFinite lib enc "dag-cbor" data ↔ AllFinite (floats node) := by
  have hbuilt : Built (convertIpldNodes node) := built_convert node hb
  obtain ⟨-, hdumps⟩ := encodeNode_cbor h
  obtain ⟨d, hd, rfl⟩ : ∃ d, cborDoc (convertIpldNodes node) = some d ∧ enc d = data := by
    have hdoc := cborDumps_document hw hbuilt
    rw [hdumps] at hdoc
    exact Option.map_eq_some_iff.mp hdoc.symm
  have hfloats : AllFinite d.floats ↔ AllFinite (floats node) := by
    rw [cborDoc_floats _ d hd, floats_convert]
  constructor
  · rintro ⟨e | e, hkind, hwritten, hfinite⟩
    · exact absurd (hkind.mp rfl) (by decide)
    · obtain rfl : e = d := hw.injective hwritten
      exact hfloats.mp hfinite
  · intro hfinite
    exact ⟨.inr d, iff_of_false (by simp) (by decide), rfl, hfloats.mpr hfinite⟩

theorem encodeNode_checked (hcodec : codec = "dag-json" ∨ codec = "dag-cbor")
    (h : encodeNode lib node codec = .ok data) : checkNan node = .ok () := by
  have hguard : codec = "dag-json" ∨ codec = "dag-cbor" ∨ codec = "cbor" := by tauto
  unfold encodeNode at h
  rw [if_pos hguard] at h
  obtain ⟨u, hchecked, -⟩ := bind_ok.mp h
  exact hchecked

theorem encodeNode_finite_iff (lib : IpldLib) (enc : CborDoc → Bytes) (hw : CborWrites lib enc) (codec : String)
    (hcodec : codec = "dag-json" ∨ codec = "dag-cbor") (node : PyValue) (hb : Built node) (data : Bytes)
    (h : encodeNode lib node codec = .ok data) :
    (EncodesFinite lib enc codec data ↔
      (codec = "dag-cbor" → ∀ w ∈ passedOver node, AllFinite (floats w))) ∧
    (codec = "dag-json" → AllFinite (floats node)) := by
  have hnode := allFinite_iff node (encodeNode_checked hcodec h)
  rcases hcodec with rfl | rfl
  · obtain ⟨hencodes, hfloats⟩ := encodesFinite_json h
    exact ⟨iff_of_true hencodes (by simp), fun _ => hfloats⟩
  · refine ⟨?_, by simp⟩
    rw [encodesFinite_cbor hw hb h, hnode]
    simp

def tupleOf (bits : BitVec 64) : PyValue := .dict [(.str "value", .tuple [.float bits])]

theorem tupleOf_built (bits : BitVec 64) : Built (tupleOf bits) := ⟨⟨trivial, trivial, trivial⟩, trivial⟩

theorem encodeNode_finite_iff_tuple : EncodesFinite sampleLib item "dag-cbor"
    [0xA1, 0x65, 118, 97, 108, 117, 101, 0x81, 0xFB, 0x3F, 0xF8, 0, 0, 0, 0, 0, 0] :=
  (encodeNode_finite_iff sampleLib item sampleLib_cborWrites "dag-cbor" (.inr rfl) (tupleOf 0x3FF8000000000000)
    (tupleOf_built _) _ (by decide +kernel)).1.mpr fun _ w hw => by
      rcases List.mem_pair.mp hw with rfl | rfl
      · exact allFinite_nil
      · exact allFinite_singleton.mpr rfl

theorem encodeNode_finite_fails :
    (Built (tupleOf 0x7FF8000000000000) ∧ ∃ data, encodeNode sampleLib (tupleOf 0x7FF8000000000000) "dag-cbor" =
      .ok data ∧ ¬EncodesFinite sampleLib item "dag-cbor" data) ∧
    (Built nanKey ∧ ∃ data, encodeNode sampleLib nanKey "dag-cbor" = .ok data ∧
      ¬EncodesFinite sampleLib item "dag-cbor" data) := by
  have fails {node : PyValue} {data : Bytes} (hb : Built node) (hnan : floats node = [0x7FF8000000000000])
      (h : encodeNode sampleLib node "dag-cbor" = .ok data) : ¬EncodesFinite sampleLib item "dag-cbor" data := by
    have hinfinite : isFinite 0x7FF8000000000000 = false := rfl
    rw [encodesFinite_cbor sampleLib_cborWrites hb h, hnan, allFinite_singleton, hinfinite]
    exact Bool.false_ne_true
  have hbuilt : Built nanKey := IsNode.built nanKey nanKey_isNode
  exact ⟨⟨tupleOf_built _, _, rfl, fails (tupleOf_built _) rfl rfl⟩, ⟨hbuilt, _, rfl, fails hbuilt rfl rfl⟩⟩

end IpfsLite.Ipld
