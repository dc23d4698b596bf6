import IpfsLite.DagExact
import IpfsLite.JsonValues

/-!
`dag/put` and `dag/get` of the HTTP API, with `services/dag_service.py`. A node of JSON that was put comes
back, and the JSON of a node has the links that the node has.
-/

namespace IpfsLite.DagApi

open Ipld Ipns PyJson PyValue

structure DagApiLib extends NodeLib where
  /-- `bytes.decode` with the encoding that `json.detect_encoding` finds. -/
  decodeBody : Bytes → Except PyError String
  reprBytes : Bytes → String
  /-- The attribute `codec` of a CID. -/
  cidCodec : dag.Cid → String

inductive Body
  | detail (message : String)
  | cid (cid : String)
  | octets (data : Bytes)
  | cbor (data : Bytes)
  | json (text : String)

structure Response where
  status : ℕ
  body : Body

def internalServerError : Response := ⟨500, .detail "Internal server error"⟩

inductive Fetched
  | block (data : Bytes)
  | missing
  | tooSlow
  | raises (e : PyError)

section Handlers

variable (lib : DagApiLib)

def loadBody (body : Bytes) : Except PyError PyValue := (lib.decodeBody body).bind (jsonLoads lib.parseFloat)

/-- A number with too many digits is a plain `ValueError`. -/
def isJsonDecodeError (e : PyError) : Bool :=
  e.type = .valueError ∧ e.message ≠ "Exceeds the limit (4300 digits) for integer string conversion"

def dagPut (store : Store) (body : Bytes) (storeCodec : String) : Store × Response :=
  match loadBody lib body with
  | .error e =>
    (store, if isJsonDecodeError e then ⟨400, .detail s!"{e.message} | Body: {lib.reprBytes body}"⟩
      else internalServerError)
  | .ok nodeData =>
    match addNode lib.toIpldLib nodeData storeCodec with
    | .error _ => (store, internalServerError)
    | .ok added => (store.set added.cid added.data, ⟨200, .cid (lib.formatCidForDisplay added.cid)⟩)

inductive Failure
  | blockNotFound
  | invalid
  | other

def failure (e : PyError) : Failure :=
  if e.type = .blockNotFoundError then .blockNotFound
  else if e.type.isValueError then .invalid
  else .other

def Failure.response (arg : String) : Failure → Response
  | .blockNotFound => ⟨404, .detail s!"Block not found: {arg}"⟩
  | .invalid => ⟨400, .detail s!"Invalid CID: {arg}"⟩
  | .other => internalServerError

def decodeBlock (cid : lib.dag.Cid) (data : Bytes) : Except PyError PyValue :=
  (lib.dag.parseCidCodec (lib.dag.cidToBytes cid)).bind (decodeNode lib.decoders data)

def orFailure (r : Except PyError PyValue) : Except Failure PyValue :=
  match r with
  | .ok v => .ok v
  | .error e => .error (failure e)

def getNode (exchange : lib.dag.Cid → Fetched) (store : Store) (cid : lib.dag.Cid) : Except Failure PyValue :=
  match store.get? (lib.dag.cidToBytes cid) with
  | some data => orFailure (decodeBlock lib cid data)
  | Option.none =>
    match exchange cid with
    | .block data => orFailure (decodeBlock lib cid data)
    | .missing | .tooSlow => .error .blockNotFound
    | .raises e => .error (failure e)

def acceptsCbor (accept : String) : Bool := "application/cbor".toList <:+: accept.toList

def sent (r : Except PyError Body) : Response :=
  match r with
  | .ok body => ⟨200, body⟩
  | .error _ => internalServerError

def rawContent : PyValue → Response
  | .bytes data => ⟨200, .octets data⟩
  | _ => internalServerError

def render (accept cidCodec : String) (nodeData : PyValue) : Response :=
  if (cidCodec = "dag-cbor" ∨ cidCodec = "cbor") ∧ acceptsCbor accept then sent ((lib.cborDumps nodeData).map .cbor)
  else if cidCodec = "raw" then rawContent nodeData
  else sent ((dagDumps lib.toNodeLib nodeData).map .json)

def dagGet (exchange : lib.dag.Cid → Fetched) (store : Store) (arg accept : String) : Response :=
  match lib.dag.parseCid arg with
  | .error e => (if e.type.isValueError then Failure.invalid else .other).response arg
  | .ok cid =>
    match getNode lib exchange store cid with
    | .error f => f.response arg
    | .ok nodeData => render lib accept (lib.cidCodec cid) nodeData

end Handlers

section RoundTrip

variable {lib : DagApiLib} {enc : CborDoc → Bytes} {codec : String} {v : PyValue} {data : Bytes}

theorem dagGet_stored (exchange : lib.dag.Cid → Fetched) {store : Store} {arg : String} (accept : String)
    {cid : lib.dag.Cid} (hcid : lib.dag.parseCid arg = .ok cid) (hdata : store.get? (lib.dag.cidToBytes cid) = some data)
    (hnode : decodeBlock lib cid data = .ok v) :
    dagGet lib exchange store arg accept = render lib accept (lib.cidCodec cid) v := by
  simp only [dagGet, hcid, getNode, hdata, hnode, orFailure]

theorem dagPut_ok {store after : Store} {body : Bytes} {x : String}
    (h : dagPut lib store body codec = (after, ⟨200, .cid x⟩)) : ∃ v data c, loadBody lib body = .ok v ∧
      encodeNode lib.toIpldLib v codec = .ok data ∧ lib.computeCidV1 data codec = .ok c ∧
      lib.formatCidForDisplay c = x ∧ after = store.set c data := by
  unfold dagPut at h
  split at h
  · split_ifs at h
    · simp at h
    · simp [internalServerError] at h
  · next v hv =>
    split at h
    · simp [internalServerError] at h
    · next added hadded =>
      obtain ⟨data, hdata, hadded⟩ := bind_ok.mp hadded
      obtain ⟨c, hc, hadded⟩ := bind_ok.mp hadded
      obtain rfl := Except.ok.inj hadded
      obtain ⟨rfl, hresponse⟩ := Prod.mk.inj h
      exact ⟨v, data, c, hv, hdata, hc, Body.cid.inj (congrArg Response.body hresponse), rfl⟩

theorem dagPut_of_ok {store : Store} {body : Bytes} {c : Bytes} (hv : loadBody lib body = .ok v)
    (hdata : encodeNode lib.toIpldLib v codec = .ok data) (hc : lib.computeCidV1 data codec = .ok c) :
    dagPut lib store body codec = (store.set c data, ⟨200, .cid (lib.formatCidForDisplay c)⟩) := by
  have hadded : addNode lib.toIpldLib v codec = .ok ⟨c, data, .ipldNode (lib.formatCidForDisplay c)⟩ :=
    bind_ok.mpr ⟨data, hdata, bind_ok.mpr ⟨c, hc, rfl⟩⟩
  simp only [dagPut, hv, hadded]

theorem decodeNode_json_value (hf : FloatReads lib.toIpldLib lib.parseFloat) (hw : CborWrites lib.toIpldLib enc)
    (hr : CborReads lib.toNodeLib enc) (hcodec : codec = "dag-json" ∨ codec = "dag-cbor") (hv : IsJson v)
    (hdata : encodeNode lib.toIpldLib v codec = .ok data) :
    decodeNode lib.decoders data codec = .ok v ∧ checkNan v = .ok () := by
  rcases hcodec with rfl | rfl
  · obtain ⟨text, htext, rfl⟩ := encodeNode_json hdata
    have hstored := decodeNode_json hf htext
    rw [hv.jsonStored] at hstored
    obtain ⟨_, hnan, -⟩ := bind_ok.mp hdata
    exact ⟨hstored, hnan⟩
  · obtain ⟨hnan, hdumps⟩ := encodeNode_cbor hdata
    have hstored := decodeNode_cbor hw hr hv.isNode hdumps
    rw [hv.cborStored hnan] at hstored
    exact ⟨hstored, hnan⟩

end RoundTrip

theorem dagPut_dagGet (lib : DagApiLib) (enc : CborDoc → Bytes) (hf : FloatReads lib.toIpldLib lib.parseFloat)
    (hw : CborWrites lib.toIpldLib enc) (hr : CborReads lib.toNodeLib enc)
    (hcid : ∀ data codec c, lib.computeCidV1 data codec = .ok c → ∃ cid,
      lib.dag.parseCid (lib.formatCidForDisplay c) = .ok cid ∧ lib.dag.cidToBytes cid = c ∧
        lib.dag.parseCidCodec c = .ok codec ∧ lib.cidCodec cid = codec)
    (hbody : ∀ s v, jsonLoads lib.parseFloat s = .ok v → lib.decodeBody (encodeUtf8 s) = .ok s)
    (codec : String) (hcodec : codec = "dag-json" ∨ codec = "dag-cbor") (store after : Store) (body : Bytes) (x : String)
    (hput : dagPut lib store body codec = (after, ⟨200, .cid x⟩)) :
    ∃ v data c, loadBody lib body = .ok v ∧ after = store.set c data ∧
      ∀ (exchange : lib.dag.Cid → Fetched) (later : Store) (accept : String), later.get? c = some data →
        if codec = "dag-cbor" ∧ acceptsCbor accept then
          dagGet lib exchange later x accept = ⟨200, .cbor data⟩ ∧ lib.dag.cborLoads data = .ok v
        else ∃ text, dagGet lib exchange later x accept = ⟨200, .json text⟩ ∧
          jsonLoads lib.parseFloat text = .ok v ∧
            ∀ s, dagPut lib s (encodeUtf8 text) codec = (s.set c data, ⟨200, .cid x⟩) := by
  obtain ⟨v, data, c, hv, hdata, hc, rfl, rfl⟩ := dagPut_ok hput
  refine ⟨v, data, c, hv, rfl, ?_⟩
  intro exchange later accept hlater
  have hjson : IsJson v := by
    obtain ⟨s, -, hs⟩ := bind_ok.mp hv
    exact jsonLoads_json hs
  obtain ⟨hdecode, hnan⟩ := decodeNode_json_value hf hw hr hcodec hjson hdata
  obtain ⟨cid, hparse, rfl, hcidCodec, hattribute⟩ := hcid data codec c hc
  have hget := dagGet_stored exchange accept hparse hlater (bind_ok.mpr ⟨codec, hcidCodec, hdecode⟩)
  rw [hattribute] at hget
  by_cases hcbor : codec = "dag-cbor" ∧ acceptsCbor accept
  · obtain ⟨rfl, haccept⟩ := hcbor
    obtain ⟨-, hdumps⟩ := encodeNode_cbor hdata
    rw [hjson.convertIpldNodes] at hdumps
    rw [render, if_pos ⟨.inl rfl, haccept⟩, hdumps] at hget
    rw [if_pos ⟨rfl, haccept⟩]
    exact ⟨hget, hdecode⟩
  · have htext : ∃ cs, dagText lib.toNodeLib v = .ok cs := hjson.dagText
    obtain ⟨cs, hcs⟩ := htext
    have hdumps : dagDumps lib.toNodeLib v = .ok (String.ofList cs) := map_ok.mpr ⟨cs, hcs, rfl⟩
    have hloads := jsonLoads_dagDumps hf hdumps
    rw [hjson.dagJson hnan] at hloads
    have hother : ¬((codec = "dag-cbor" ∨ codec = "cbor") ∧ acceptsCbor accept) ∧ codec ≠ "raw" := by
      rcases hcodec with rfl | rfl
      · simp
      · simpa using hcbor
    rw [render, if_neg hother.1, if_neg hother.2, hdumps] at hget
    rw [if_neg hcbor]
    refine ⟨String.ofList cs, hget, hloads, fun s => ?_⟩
    exact dagPut_of_ok (bind_ok.mpr ⟨_, hbody _ v hloads, hloads⟩) hdata hc

noncomputable def linkedLib : DagApiLib where
  toNodeLib := { sampleNodes with dag := { DagLib.ofTable [linkedCid] [] [] [] with cborLoads := sampleCborLoads } }
  decodeBody := decodeUtf8
  reprBytes _ := "b''"
  cidCodec row := row.codec

theorem linkedStr_json : IsJson linkedStr := by
  have hlink : ∀ v ∈ [PyValue.str KnownCid.rawA.str], IsJson v := by
    intro v hv
    rw [List.mem_singleton.mp hv]
    exact .str rfl
  refine .dict (List.pairwise_pair.mpr (by decide)) (by simp [isJsonStr, PyStr.paired]) ?_
  intro e he
  simp only [List.mem_cons, List.not_mem_nil, or_false] at he
  rcases he with rfl | rfl
  · exact .str rfl
  · exact .list hlink

theorem dagPut_dagGet_linked : ∃ text, dagGet linkedLib (fun _ => .missing)
    (Dict.empty.set linkedCid.bytes linkedData) linkedCid.str "" = ⟨200, .json text⟩ ∧
      jsonLoads linkedLib.parseFloat text = .ok linkedStr := by
  have hcid (data : Bytes) (codec : String) (c : Bytes) (h : linkedLib.computeCidV1 data codec = .ok c) :
      ∃ cid, linkedLib.dag.parseCid (linkedLib.formatCidForDisplay c) = .ok cid ∧ linkedLib.dag.cidToBytes cid = c ∧
        linkedLib.dag.parseCidCodec c = .ok codec ∧ linkedLib.cidCodec cid = codec := by
    simp only [linkedLib, sampleNodes, Ipld.sampleLib] at h
    split_ifs at h with hknown
    obtain ⟨-, rfl⟩ := hknown
    obtain rfl := Except.ok.inj h
    exact ⟨linkedCid, rfl, rfl, rfl, rfl⟩
  have hbody (s : String) (v : PyValue) (_ : jsonLoads linkedLib.parseFloat s = .ok v) :
      linkedLib.decodeBody (encodeUtf8 s) = .ok s := decodeUtf8_encodeUtf8 s
  have htext : ∃ cs, dagText linkedLib.toNodeLib linkedStr = .ok cs := linkedStr_json.dagText
  obtain ⟨cs, hcs⟩ := htext
  have hdumps : dagDumps linkedLib.toNodeLib linkedStr = .ok (String.ofList cs) := map_ok.mpr ⟨cs, hcs, rfl⟩
  have hf : FloatReads linkedLib.toIpldLib linkedLib.parseFloat := sampleNodes_floatReads
  have hloads := jsonLoads_dagDumps hf hdumps
  rw [linkedStr_json.dagJson rfl] at hloads
  have hv := bind_ok.mpr ⟨_, hbody _ _ hloads, hloads⟩
  have hdata : encodeNode linkedLib.toIpldLib linkedStr "dag-cbor" = .ok linkedData := by decide +kernel
  have hc : linkedLib.computeCidV1 linkedData "dag-cbor" = .ok linkedCid.bytes := by decide +kernel
  have hput : dagPut linkedLib .empty _ "dag-cbor" = _ := dagPut_of_ok hv hdata hc
  have hformat : linkedLib.formatCidForDisplay linkedCid.bytes = linkedCid.str := rfl
  rw [hformat] at hput
  obtain ⟨v, data, c, hv', hafter, hall⟩ := dagPut_dagGet linkedLib item hf sampleLib_cborWrites
    sampleNodes_cborReads hcid hbody "dag-cbor" (.inr rfl) .empty _ _ _ hput
  obtain rfl : linkedStr = v := Except.ok.inj (hv.symm.trans hv')
  have hlater : (Dict.empty.set linkedCid.bytes linkedData).get? c = some data := by
    rw [hafter, Dict.get?_set, if_pos rfl]
  have hget := hall (fun _ => .missing) _ "" hlater
  rw [if_neg (by decide)] at hget
  obtain ⟨text, htext, hread, -⟩ := hget
  exact ⟨text, htext, hread⟩

/-- A node of the IPLD data model: every key is a string, no string has a pair of surrogates, and bytes under
the key `/` are no link. -/
inductive IsIpld : PyValue → Prop
  | none : IsIpld .none
  | bool (b : Bool) : IsIpld (.bool b)
  | int (i : ℤ) : IsIpld (.int i)
  | float (bits : BitVec 64) : IsIpld (.float bits)
  | str {s : PyStr} (h : s.paired = false) : IsIpld (.str s)
  | bytes (b : Bytes) : IsIpld (.bytes b)
  | link (value : PyValue) : IsIpld (.cborTag 42 value)
  | list {items : List PyValue} (h : ∀ v ∈ items, IsIpld v) : IsIpld (.list items)
  | dict {items : List (PyValue × PyValue)} (hdistinct : KeysDistinct items)
      (hkeys : ∀ e ∈ items, isJsonStr e.1 = true) (hvalues : ∀ e ∈ items, IsIpld e.2)
      (hslash : ∀ b, lookup "/" items ≠ some (.bytes b)) : IsIpld (.dict items)

section Links

variable {lib : NodeLib} {strict : Bool}

theorem dagTexts_ok {vs : List PyValue} {ts : List (List Char)} (h : dagTexts lib vs = .ok ts) :
    ∀ v ∈ vs, ∃ cs, dagText lib v = .ok cs := by
  induction vs generalizing ts with
  | nil => simp
  | cons v vs ih =>
    obtain ⟨cs, hcs, h⟩ := bind_ok.mp h
    obtain ⟨ts, hts, -⟩ := bind_ok.mp h
    exact List.forall_mem_cons.mpr ⟨⟨cs, hcs⟩, ih hts⟩

theorem dagMembers_ok {es : List (PyValue × PyValue)} {ts : List (List Char)} (h : dagMembers lib es = .ok ts) :
    ∀ e ∈ es, ∃ cs, dagText lib e.2 = .ok cs := by
  induction es generalizing ts with
  | nil => simp
  | cons e es ih =>
    obtain ⟨key, -, h⟩ := bind_ok.mp h
    obtain ⟨cs, hcs, h⟩ := bind_ok.mp h
    obtain ⟨ts, hts, -⟩ := bind_ok.mp h
    exact List.forall_mem_cons.mpr ⟨⟨cs, hcs⟩, ih hts⟩

theorem extractItems_map {lib : DagLib} {f : PyValue → PyValue} {vs : List PyValue}
    (h : ∀ v ∈ vs, extractCids lib strict (f v) = extractCids lib strict v) :
    extractItems lib strict (vs.map f) = extractItems lib strict vs := by
  induction vs with
  | nil => rfl
  | cons v vs ih =>
    rw [List.map_cons, extractItems, extractItems, h v (by simp), ih fun w hw => h w (List.mem_cons_of_mem v hw)]

theorem extractValues_map {lib : DagLib} {f : PyValue → PyValue} {es : List (PyValue × PyValue)}
    (h : ∀ e ∈ es, extractCids lib strict (f e.2) = extractCids lib strict e.2) :
    extractValues lib strict (es.map fun e => (e.1, f e.2)) = extractValues lib strict es := by
  induction es with
  | nil => rfl
  | cons e es ih =>
    rw [List.map_cons, extractValues, extractValues, h e (by simp), ih fun g hg => h g (List.mem_cons_of_mem e hg)]

theorem lookup_map (f : PyValue → PyValue) (key : String) (es : List (PyValue × PyValue)) :
    lookup key (es.map fun e => (e.1, f e.2)) = (lookup key es).map f := by
  unfold lookup
  rw [List.find?_map, Option.map_map, Option.map_map]
  rfl

theorem slashLink_dagJson {es : List (PyValue × PyValue)} (hvalues : ∀ e ∈ es, IsIpld e.2)
    (hslash : ∀ b, lookup "/" es ≠ some (.bytes b)) :
    slashLink lib.decoders strict ((lookup "/" es).map (dagJson lib)) =
      slashLink lib.decoders strict (lookup "/" es) := by
  cases hv : lookup "/" es with
  | none => rfl
  | some v =>
    cases v with
    | bytes b => exact absurd hv (hslash b)
    | str s =>
      obtain ⟨e, he, hstr⟩ := Option.map_eq_some_iff.mp hv
      have hipld := hvalues e (List.mem_of_find?_eq_some he)
      rw [hstr] at hipld
      cases hipld with
      | str h => rw [Option.map_some, dagJson, PyStr.joined_eq_iff.mpr h]
    | _ => rfl

theorem extractCids_dagJson (hshow : ∀ w cid, parseCidValue lib.dag w = .ok cid →
      linkCid lib.decoders (.str (lib.dag.formatCidForDisplay cid)) = .ok (lib.dag.cidToBytes cid))
    {node : PyValue} (h : IsIpld node) (htext : ∃ cs, dagText lib node = .ok cs) :
    extractCids lib.decoders strict (dagJson lib node) = extractCids lib.decoders strict node := by
  induction h with
  | none | bool | int | float | str | bytes => rfl
  | link value =>
    obtain ⟨cs, hcs⟩ := htext
    obtain ⟨s, hs, -⟩ := map_ok.mp hcs
    obtain ⟨cid, hcid, rfl⟩ := map_ok.mp hs
    obtain ⟨w, hw, hparse⟩ := bind_ok.mp hcid
    have hlink : value.dropFirst.bind (linkCid lib.decoders) = .ok (lib.dag.cidToBytes cid) :=
      bind_ok.mpr ⟨w, hw, map_ok.mpr ⟨cid, hparse, rfl⟩⟩
    have hjson : dagJson lib (.cborTag 42 value) = .dict [(.str "/", .str (lib.dag.formatCidForDisplay cid))] := by
      rw [dagJson, hs]
      rfl
    have htag : extractCids lib.decoders strict (.cborTag 42 value) = .ok [lib.dag.cidToBytes cid] := by
      rw [extractCids, if_pos rfl, hlink]
      rfl
    rw [hjson, htag, extractCids]
    change Except.bind (attempt strict (linkCid lib.decoders (.str (lib.dag.formatCidForDisplay cid)))) _ = _
    rw [hshow w cid hparse]
    rfl
  | list _ ih =>
    obtain ⟨cs, hcs⟩ := htext
    obtain ⟨ts, hts, -⟩ := bind_ok.mp hcs
    rw [dagJson, dagJsonItems_eq_map, extractCids, extractCids]
    exact extractItems_map fun v hv => ih v hv (dagTexts_ok hts v hv)
  | @dict items hdistinct hkeys hvalues hslash ih =>
    obtain ⟨cs, hcs⟩ := htext
    obtain ⟨ts, hts, -⟩ := bind_ok.mp hcs
    have hmembers : (items.map fun e => (PyValue.str (dagKeyText lib e.1).joined, dagJson lib e.2)) =
        items.map fun e => (e.1, dagJson lib e.2) := by
      apply List.map_congr_left
      rintro ⟨k, v⟩ he
      obtain ⟨s, rfl, hs⟩ := eq_str_of_isJsonStr (hkeys _ he)
      exact congrArg (fun s => (PyValue.str s, dagJson lib v)) hs
    rw [dagJson, dagJsonMembers_eq_map, hmembers, dictOf_distinct (keysDistinct_map.mpr hdistinct), extractCids,
      extractCids, lookup_map, slashLink_dagJson hvalues hslash,
      extractValues_map fun e he => ih e he (dagMembers_ok hts e he)]

theorem isIpld_of_json {v : PyValue} (h : IsJson v) : IsIpld v := by
  induction h with
  | none => exact .none
  | bool b => exact .bool b
  | int => exact .int _
  | float bits => exact .float bits
  | str h => exact .str h
  | list _ ih => exact .list ih
  | @dict items hdistinct hkeys hvalues ih =>
    refine .dict hdistinct hkeys ih fun b hb => ?_
    obtain ⟨e, he, hbytes⟩ := Option.map_eq_some_iff.mp hb
    have hjson := hvalues e (List.mem_of_find?_eq_some he)
    rw [hbytes] at hjson
    cases hjson

theorem sent_json {r : Except PyError Body} {text : String} (h : sent r = ⟨200, .json text⟩) :
    r = .ok (.json text) := by
  cases r with
  | error e => simp [sent, internalServerError] at h
  | ok body =>
    have hbody : body = .json text := congrArg Response.body h
    rw [hbody]

theorem render_json {lib : DagApiLib} {accept cidCodec text : String} {node : PyValue}
    (h : render lib accept cidCodec node = ⟨200, .json text⟩) : dagDumps lib.toNodeLib node = .ok text := by
  unfold render at h
  split_ifs at h
  · obtain ⟨data, -, hbody⟩ := map_ok.mp (sent_json h)
    contradiction
  · cases node <;> simp [rawContent, internalServerError] at h
  · obtain ⟨text', htext, hbody⟩ := map_ok.mp (sent_json h)
    rw [htext, Body.json.inj hbody]

theorem blockLinks_eq {lib : DagLib} {cid data : Bytes} {codec : String} {norm : Codec} {node : PyValue}
    (hcodec : lib.parseCidCodec cid = .ok codec) (hnorm : lib.normaliseCodec codec = .ok norm)
    (hpb : norm.isDagPb = false) (hlinks : norm.str ∈ linkCodecs) (hnode : decodeNode lib data codec = .ok node) :
    blockLinks lib strict cid data = extractCids lib strict node := by
  simp only [blockLinks, hcodec, hnorm, hnode, bind, Except.bind, hpb, Bool.false_eq_true, if_false, if_pos hlinks]
  cases h : extractCids lib strict node with
  | ok cids => rfl
  | error e =>
    cases strict with
    | true => rfl
    | false =>
      obtain ⟨cids, hcids, -⟩ := extractCids_loose lib node
      rw [hcids] at h
      contradiction

end Links

theorem dagGet_links (lib : DagApiLib) (hf : FloatReads lib.toIpldLib lib.parseFloat)
    (hshow : ∀ w cid, parseCidValue lib.dag w = .ok cid →
      linkCid lib.decoders (.str (lib.dag.formatCidForDisplay cid)) = .ok (lib.dag.cidToBytes cid))
    (exchange : lib.dag.Cid → Fetched) (store : Store) (arg accept : String) (cid : lib.dag.Cid)
    (hcid : lib.dag.parseCid arg = .ok cid) (data : Bytes) (hdata : store.get? (lib.dag.cidToBytes cid) = some data)
    (codec : String) (hcodec : lib.dag.parseCidCodec (lib.dag.cidToBytes cid) = .ok codec) (norm : Codec)
    (hnorm : lib.dag.normaliseCodec codec = .ok norm) (hpb : norm.isDagPb = false) (hlinks : norm.str ∈ linkCodecs)
    (node : PyValue) (hnode : decodeNode lib.decoders data codec = .ok node)
    (hipld : codec = "dag-json" ∨ IsIpld node) (text : String)
    (hget : dagGet lib exchange store arg accept = ⟨200, .json text⟩) :
    ∃ v, jsonLoads lib.parseFloat text = .ok v ∧
      ∀ strict, extractCids lib.decoders strict v = blockLinks lib.decoders strict (lib.dag.cidToBytes cid) data := by
  rw [dagGet_stored exchange accept hcid hdata (bind_ok.mpr ⟨codec, hcodec, hnode⟩)] at hget
  have hdumps := render_json hget
  have hnodeIpld : IsIpld node := by
    rcases hipld with rfl | hipld
    · obtain ⟨s, -, hs⟩ := bind_ok.mp hnode
      exact isIpld_of_json (jsonLoads_json hs)
    · exact hipld
  refine ⟨dagJson lib.toNodeLib node, jsonLoads_dagDumps hf hdumps, fun strict => ?_⟩
  obtain ⟨cs, hcs, -⟩ := map_ok.mp hdumps
  have hblock : blockLinks lib.decoders strict (lib.dag.cidToBytes cid) data =
      extractCids lib.decoders strict node := blockLinks_eq hcodec hnorm hpb hlinks hnode
  rw [extractCids_dagJson hshow hnodeIpld ⟨cs, hcs⟩, hblock]

noncomputable def linkToALib : DagApiLib where
  toIpldLib := Ipld.sampleLib
  dag := .ofTable [.rawA, .linkToA] [] [] [(KnownCid.linkToAData, .cborTag 42 (.bytes (0 :: KnownCid.rawA.bytes)))]
  parseFloat := sampleNodes.parseFloat
  decodeBody := decodeUtf8
  reprBytes _ := "b''"
  cidCodec row := row.codec

def linkToAJson : String :=
  "\x7b\"/\": \"bafkreigks6arfsq3xxfpvqrrwonchxcnu6do76auprhhfomao6c273sixm\"\x7d"

theorem dagGet_links_linkToA : ∃ v, jsonLoads linkToALib.parseFloat linkToAJson = .ok v ∧
    extractCids linkToALib.decoders true v = .ok [KnownCid.rawA.bytes] := by
  have hshow (w : PyValue) (cid : linkToALib.dag.Cid) (h : parseCidValue linkToALib.dag w = .ok cid) :
      linkCid linkToALib.decoders (.str (linkToALib.dag.formatCidForDisplay cid)) =
        .ok (linkToALib.dag.cidToBytes cid) := by
    have hmem : cid ∈ [KnownCid.rawA, .linkToA] := by
      cases w with
      | str s =>
        cases s with
        | text s => exact (ofTable_parseCid h).1
        | surrogates cs => cases h
      | bytes b => exact (ofTable_parseCidBytes h).1
      | _ => cases h
    rcases List.mem_cons.mp hmem with rfl | hmem
    · rfl
    · obtain rfl := List.mem_singleton.mp hmem
      rfl
  obtain ⟨v, hv, hlinks⟩ := dagGet_links linkToALib sampleNodes_floatReads hshow (fun _ => .missing)
    (Dict.empty.set KnownCid.linkToA.bytes KnownCid.linkToAData) KnownCid.linkToA.str "" .linkToA rfl
    KnownCid.linkToAData rfl "dag-cbor" rfl ⟨"dag-cbor", false⟩ rfl rfl (by decide)
    (.cborTag 42 (.bytes (0 :: KnownCid.rawA.bytes))) rfl (.inr (.link _)) _ rfl
  exact ⟨v, hv, (hlinks true).trans rfl⟩

end IpfsLite.DagApi
