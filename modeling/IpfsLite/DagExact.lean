import IpfsLite.DagWalk
import IpfsLite.GcSafety

namespace IpfsLite

open Worklist

variable {lib : DagLib}

inductive LinkAt (lib : DagLib) : PyValue → Except PyError Bytes → Prop
  | slashStr {items : List (PyValue × PyValue)} {s : PyStr}
      (h : PyValue.lookup "/" items = some (.str s)) : LinkAt lib (.dict items) (linkCid lib (.str s))
  | slashBytes {items : List (PyValue × PyValue)} {b : Bytes}
      (h : PyValue.lookup "/" items = some (.bytes b)) : LinkAt lib (.dict items) (linkCid lib (.bytes b))
  | value {items : List (PyValue × PyValue)} {k v : PyValue} {r : Except PyError Bytes}
      (h : (k, v) ∈ items) (hr : LinkAt lib v r) : LinkAt lib (.dict items) r
  | item {items : List PyValue} {v : PyValue} {r : Except PyError Bytes} (h : v ∈ items)
      (hr : LinkAt lib v r) : LinkAt lib (.list items) r
  | tag {v : PyValue} : LinkAt lib (.cborTag 42 v) (v.dropFirst.bind (linkCid lib))

/-- The links of a block: those of its dag-pb node, or those of the value it decodes to that can be
read. A block that does not decode has none. -/
inductive BlockLink (lib : DagLib) (c data : Bytes) : Bytes → Prop
  | dagPb {codec : String} {norm : Codec} {pb : DagPb} {d : Bytes} (hcodec : lib.parseCidCodec c = .ok codec)
      (hnorm : lib.normaliseCodec codec = .ok norm) (hpb : norm.isDagPb = true)
      (hdecode : lib.decodeDagPb data = .ok pb) (hd : some d ∈ pb.links) : BlockLink lib c data d
  | node {codec : String} {norm : Codec} {v : PyValue} {d : Bytes} (hcodec : lib.parseCidCodec c = .ok codec)
      (hnorm : lib.normaliseCodec codec = .ok norm) (hpb : norm.isDagPb = false)
      (hlink : norm.str ∈ linkCodecs) (hdecode : decodeNode lib data codec = .ok v)
      (hd : LinkAt lib v (.ok d)) : BlockLink lib c data d

def Linked (lib : DagLib) (store : Store) (c d : Bytes) : Prop :=
  ∃ data, store.get? c = some data ∧ BlockLink lib c data d

def Reachable (lib : DagLib) (store : Store) : Bytes → Bytes → Prop :=
  Relation.ReflTransGen (Linked lib store)

def CodecKnown (lib : DagLib) (c : Bytes) : Prop :=
  ∃ codec norm, lib.parseCidCodec c = .ok codec ∧ lib.normaliseCodec codec = .ok norm

def AllRead (links : Except PyError Bytes → Prop) : Prop := ∀ r, links r → ∃ d, r = .ok d

def Decodes (lib : DagLib) (c data : Bytes) : Prop :=
  ∀ codec norm, lib.parseCidCodec c = .ok codec → lib.normaliseCodec codec = .ok norm →
    (norm.isDagPb = true → ∃ pb, lib.decodeDagPb data = .ok pb) ∧
      (norm.isDagPb = false → norm.str ∈ linkCodecs →
        ∃ v, decodeNode lib data codec = .ok v ∧ AllRead (LinkAt lib v))

theorem attempt_loose (r : Except PyError Bytes) :
    ∃ cs, attempt false r = .ok cs ∧ ∀ d, d ∈ cs ↔ r = .ok d := by
  cases r with
  | ok c => exact ⟨[c], rfl, by simp [eq_comm]⟩
  | error e => exact ⟨[], rfl, by simp⟩

theorem attempt_ok {r : Except PyError Bytes} : (∃ cs, attempt true r = .ok cs) ↔ ∃ d, r = .ok d := by
  cases r <;> simp [attempt]

def SlashAt (lib : DagLib) (v : Option PyValue) (r : Except PyError Bytes) : Prop :=
  (∃ s, v = some (.str s) ∧ r = linkCid lib (.str s)) ∨ ∃ b, v = some (.bytes b) ∧ r = linkCid lib (.bytes b)

variable (lib) in
theorem slashLink_loose (v : Option PyValue) :
    ∃ cs, slashLink lib false v = .ok cs ∧ ∀ d, d ∈ cs ↔ SlashAt lib v (.ok d) := by
  unfold slashLink
  split
  · rename_i s
    obtain ⟨cs, hcs, hmem⟩ := attempt_loose (linkCid lib (.str s))
    exact ⟨cs, hcs, fun d => by simp [hmem, SlashAt, eq_comm]⟩
  · rename_i b
    obtain ⟨cs, hcs, hmem⟩ := attempt_loose (linkCid lib (.bytes b))
    exact ⟨cs, hcs, fun d => by simp [hmem, SlashAt, eq_comm]⟩
  · rename_i hstr hbytes
    refine ⟨[], rfl, fun d => ?_⟩
    simp only [List.not_mem_nil, SlashAt, false_iff, not_or, not_exists, not_and]
    exact ⟨fun s hs => absurd hs (hstr s), fun b hb => absurd hb (hbytes b)⟩

theorem slashLink_ok {v : Option PyValue} :
    (∃ cs, slashLink lib true v = .ok cs) ↔ AllRead (SlashAt lib v) := by
  unfold slashLink
  split
  · simp [attempt_ok, AllRead, SlashAt]
  · simp [attempt_ok, AllRead, SlashAt]
  · rename_i hstr hbytes
    refine ⟨fun _ r hr => ?_, fun _ => ⟨[], rfl⟩⟩
    rcases hr with ⟨s, hs, -⟩ | ⟨b, hb, -⟩
    · exact absurd hs (hstr s)
    · exact absurd hb (hbytes b)

theorem linkAt_dict {items : List (PyValue × PyValue)} {r : Except PyError Bytes} :
    LinkAt lib (.dict items) r ↔
      SlashAt lib (PyValue.lookup "/" items) r ∨ ∃ e ∈ items, LinkAt lib e.2 r := by
  constructor
  · intro h
    cases h with
    | slashStr h => exact .inl (.inl ⟨_, h, rfl⟩)
    | slashBytes h => exact .inl (.inr ⟨_, h, rfl⟩)
    | value h hr => exact .inr ⟨_, h, hr⟩
  · rintro ((⟨s, hs, rfl⟩ | ⟨b, hb, rfl⟩) | ⟨e, he, hr⟩)
    · exact .slashStr hs
    · exact .slashBytes hb
    · exact .value he hr

theorem linkAt_list {items : List PyValue} {r : Except PyError Bytes} :
    LinkAt lib (.list items) r ↔ ∃ v ∈ items, LinkAt lib v r := by
  constructor
  · intro h
    cases h with
    | item h hr => exact ⟨_, h, hr⟩
  · rintro ⟨v, hv, hr⟩
    exact .item hv hr

theorem linkAt_tag {tag : ℕ} {v : PyValue} {r : Except PyError Bytes} :
    LinkAt lib (.cborTag tag v) r ↔ tag = 42 ∧ r = v.dropFirst.bind (linkCid lib) := by
  constructor
  · intro h
    cases h with
    | tag => exact ⟨rfl, rfl⟩
  · rintro ⟨rfl, rfl⟩
    exact .tag

mutual

theorem extractCids_loose (lib : DagLib) (v : PyValue) :
    ∃ cs, extractCids lib false v = .ok cs ∧ ∀ d, d ∈ cs ↔ LinkAt lib v (.ok d) := by
  cases v with
  | dict items =>
    obtain ⟨link, hlink, hmem⟩ := slashLink_loose lib (PyValue.lookup "/" items)
    obtain ⟨rest, hrest, hmem'⟩ := extractValues_loose lib items
    refine ⟨link ++ rest, ?_, fun d => ?_⟩
    · rw [extractCids]
      exact bind_ok.mpr ⟨link, hlink, bind_ok.mpr ⟨rest, hrest, rfl⟩⟩
    · rw [List.mem_append, hmem, hmem', linkAt_dict]
  | list items =>
    obtain ⟨cs, hcs, hmem⟩ := extractItems_loose lib items
    exact ⟨cs, by rwa [extractCids], fun d => by rw [hmem, linkAt_list]⟩
  | cborTag tag value =>
    by_cases ht : tag = 42
    · obtain ⟨cs, hcs, hmem⟩ := attempt_loose (value.dropFirst.bind (linkCid lib))
      exact ⟨cs, by rwa [extractCids, if_pos ht], fun d => by simp [hmem, linkAt_tag, ht, eq_comm]⟩
    · exact ⟨[], by rw [extractCids, if_neg ht], fun d => by simp [linkAt_tag, ht]⟩
  | _ => exact ⟨[], by simp [extractCids], fun d => by simp only [List.not_mem_nil, false_iff]; intro h; cases h⟩

theorem extractItems_loose (lib : DagLib) (vs : List PyValue) :
    ∃ cs, extractItems lib false vs = .ok cs ∧ ∀ d, d ∈ cs ↔ ∃ v ∈ vs, LinkAt lib v (.ok d) := by
  cases vs with
  | nil => exact ⟨[], by rw [extractItems], by simp⟩
  | cons v vs =>
    obtain ⟨cids, hcids, hmem⟩ := extractCids_loose lib v
    obtain ⟨rest, hrest, hmem'⟩ := extractItems_loose lib vs
    refine ⟨cids ++ rest, ?_, fun d => ?_⟩
    · rw [extractItems]
      exact bind_ok.mpr ⟨cids, hcids, bind_ok.mpr ⟨rest, hrest, rfl⟩⟩
    · rw [List.mem_append, hmem, hmem', List.exists_mem_cons_iff]

theorem extractValues_loose (lib : DagLib) (es : List (PyValue × PyValue)) :
    ∃ cs, extractValues lib false es = .ok cs ∧ ∀ d, d ∈ cs ↔ ∃ e ∈ es, LinkAt lib e.2 (.ok d) := by
  match es with
  | [] => exact ⟨[], by rw [extractValues], by simp⟩
  | (k, v) :: es =>
    obtain ⟨cids, hcids, hmem⟩ := extractCids_loose lib v
    obtain ⟨rest, hrest, hmem'⟩ := extractValues_loose lib es
    refine ⟨cids ++ rest, ?_, fun d => ?_⟩
    · rw [extractValues]
      exact bind_ok.mpr ⟨cids, hcids, bind_ok.mpr ⟨rest, hrest, rfl⟩⟩
    · rw [List.mem_append, hmem, hmem', List.exists_mem_cons_iff]

end

theorem append_ok {x y : Except PyError (List Bytes)} :
    (∃ cs, (do let a ← x; let b ← y; Except.ok (a ++ b)) = .ok cs) ↔ (∃ a, x = .ok a) ∧ ∃ b, y = .ok b := by
  cases x <;> cases y <;> simp [bind, Except.bind]

mutual

theorem extractCids_ok (v : PyValue) :
    (∃ cs, extractCids lib true v = .ok cs) ↔ AllRead (LinkAt lib v) := by
  cases v with
  | dict items =>
    rw [extractCids, append_ok, slashLink_ok, extractValues_ok items]
    constructor
    · rintro ⟨hslash, hvalues⟩ r hr
      rcases linkAt_dict.mp hr with hr | ⟨e, he, hr⟩
      · exact hslash r hr
      · exact hvalues e he r hr
    · intro h
      exact ⟨fun r hr => h r (linkAt_dict.mpr (.inl hr)),
        fun e he r hr => h r (linkAt_dict.mpr (.inr ⟨e, he, hr⟩))⟩
  | list items =>
    rw [extractCids, extractItems_ok items]
    constructor
    · intro h r hr
      obtain ⟨v, hv, hr⟩ := linkAt_list.mp hr
      exact h v hv r hr
    · exact fun h v hv r hr => h r (linkAt_list.mpr ⟨v, hv, hr⟩)
  | cborTag tag value =>
    rw [extractCids]
    split_ifs with ht
    · rw [attempt_ok]
      constructor
      · intro h r hr
        rwa [(linkAt_tag.mp hr).2]
      · exact fun h => h _ (linkAt_tag.mpr ⟨ht, rfl⟩)
    · exact ⟨fun _ r hr => absurd (linkAt_tag.mp hr).1 ht, fun _ => ⟨[], rfl⟩⟩
  | _ =>
    refine ⟨fun _ r hr => ?_, fun _ => ⟨[], by simp [extractCids]⟩⟩
    cases hr

theorem extractItems_ok (vs : List PyValue) :
    (∃ cs, extractItems lib true vs = .ok cs) ↔ ∀ v ∈ vs, AllRead (LinkAt lib v) := by
  cases vs with
  | nil => simp [extractItems]
  | cons v vs => rw [extractItems, append_ok, extractCids_ok v, extractItems_ok vs, List.forall_mem_cons]

theorem extractValues_ok (es : List (PyValue × PyValue)) :
    (∃ cs, extractValues lib true es = .ok cs) ↔ ∀ e ∈ es, AllRead (LinkAt lib e.2) := by
  match es with
  | [] => simp [extractValues]
  | (k, v) :: es =>
    rw [extractValues, append_ok, extractCids_ok v, extractValues_ok es, List.forall_mem_cons]

end

section Codec

variable {c data d : Bytes} {codec : String} {norm : Codec}

theorem blockLink_iff (hcodec : lib.parseCidCodec c = .ok codec) (hnorm : lib.normaliseCodec codec = .ok norm) :
    BlockLink lib c data d ↔
      (norm.isDagPb = true ∧ ∃ pb, lib.decodeDagPb data = .ok pb ∧ some d ∈ pb.links) ∨
      (norm.isDagPb = false ∧ norm.str ∈ linkCodecs ∧
        ∃ v, decodeNode lib data codec = .ok v ∧ LinkAt lib v (.ok d)) := by
  constructor
  · intro h
    cases h with
    | dagPb hcodec' hnorm' hpb hdecode hd =>
      obtain rfl := Except.ok.inj (hcodec.symm.trans hcodec')
      obtain rfl := Except.ok.inj (hnorm.symm.trans hnorm')
      exact .inl ⟨hpb, _, hdecode, hd⟩
    | node hcodec' hnorm' hpb hlink hdecode hd =>
      obtain rfl := Except.ok.inj (hcodec.symm.trans hcodec')
      obtain rfl := Except.ok.inj (hnorm.symm.trans hnorm')
      exact .inr ⟨hpb, hlink, _, hdecode, hd⟩
  · rintro (⟨hpb, pb, hdecode, hd⟩ | ⟨hpb, hlink, v, hdecode, hd⟩)
    · exact .dagPb hcodec hnorm hpb hdecode hd
    · exact .node hcodec hnorm hpb hlink hdecode hd

theorem decodes_iff (hcodec : lib.parseCidCodec c = .ok codec) (hnorm : lib.normaliseCodec codec = .ok norm) :
    Decodes lib c data ↔ (norm.isDagPb = true → ∃ pb, lib.decodeDagPb data = .ok pb) ∧
      (norm.isDagPb = false → norm.str ∈ linkCodecs →
        ∃ v, decodeNode lib data codec = .ok v ∧ AllRead (LinkAt lib v)) := by
  refine ⟨fun h => h codec norm hcodec hnorm, fun h codec' norm' hcodec' hnorm' => ?_⟩
  obtain rfl := Except.ok.inj (hcodec.symm.trans hcodec')
  obtain rfl := Except.ok.inj (hnorm.symm.trans hnorm')
  exact h

end Codec

theorem blockLinks_loose {c : Bytes} (hknown : CodecKnown lib c) (data : Bytes) :
    ∃ cs, blockLinks lib false c data = .ok cs ∧ ∀ d, d ∈ cs ↔ BlockLink lib c data d := by
  obtain ⟨codec, norm, hcodec, hnorm⟩ := hknown
  simp only [blockLinks, hcodec, hnorm, bind, Except.bind, blockLink_iff hcodec hnorm]
  cases hpb : norm.isDagPb with
  | true =>
    cases hdecode : lib.decodeDagPb data with
    | ok pb => exact ⟨pb.links.filterMap id, rfl, by simp⟩
    | error e => exact ⟨[], rfl, by simp⟩
  | false =>
    by_cases hl : norm.str ∈ linkCodecs
    · cases hdecode : decodeNode lib data codec with
      | ok v =>
        obtain ⟨cs, hcs, hmem⟩ := extractCids_loose lib v
        exact ⟨cs, by simp [hl, hcs], by simp [hl, hmem]⟩
      | error e => exact ⟨[], by simp [hl], by simp⟩
    · exact ⟨[], by simp [hl], by simp [hl]⟩

theorem blockLinks_ok {c : Bytes} (hknown : CodecKnown lib c) (data : Bytes) :
    (∃ cs, blockLinks lib true c data = .ok cs) ↔ Decodes lib c data := by
  obtain ⟨codec, norm, hcodec, hnorm⟩ := hknown
  simp only [blockLinks, hcodec, hnorm, bind, Except.bind, decodes_iff hcodec hnorm]
  cases hpb : norm.isDagPb with
  | true => cases hdecode : lib.decodeDagPb data <;> simp
  | false =>
    by_cases hl : norm.str ∈ linkCodecs
    · cases hdecode : decodeNode lib data codec with
      | ok v =>
        simp only [← extractCids_ok]
        cases hcids : extractCids lib true v <;> simp [hl, hcids]
      | error e => simp [hl]
    · simp [hl]

section Walk

variable {store : Store} {root c : Bytes}

def lookBlock (store : Store) (cid : Bytes) : Except PyError (Option Bytes) := .ok (store.get? cid)

theorem expand_loose (hknown : ∀ data, store.get? c = some data → CodecKnown lib c) :
    ∃ cs, expand lib (lookBlock store) true false c = .ok cs ∧ ∀ d, d ∈ cs ↔ Linked lib store c d := by
  simp only [expand, if_true, lookBlock, Except.bind, Linked]
  cases hdata : store.get? c with
  | none => exact ⟨[], rfl, by simp⟩
  | some data =>
    obtain ⟨cs, hcs, hmem⟩ := blockLinks_loose (hknown data hdata) data
    exact ⟨cs, hcs, by simpa using hmem⟩

theorem expand_strict_ok (hknown : ∀ data, store.get? c = some data → CodecKnown lib c) :
    (∃ cs, expand lib (lookBlock store) true true c = .ok cs) ↔
      ∃ data, store.get? c = some data ∧ Decodes lib c data := by
  simp only [expand, if_true, lookBlock, Except.bind]
  cases hdata : store.get? c with
  | none => simp [blockOrMissing]
  | some data => simp [blockOrMissing, blockLinks_ok (hknown data hdata)]

theorem expand_strict_loose {cs : List Bytes} (h : expand lib (lookBlock store) true true c = .ok cs) :
    expand lib (lookBlock store) true false c = .ok cs := by
  simp only [expand, if_true, lookBlock, Except.bind] at h ⊢
  cases hdata : store.get? c with
  | none => simp [hdata, blockOrMissing] at h
  | some data =>
    simp only [hdata] at h
    exact blockLinks_strict h

theorem linked_strict (hknown : ∀ data, store.get? c = some data → CodecKnown lib c) {d : Bytes}
    (h : Edge (expand lib (lookBlock store) true true) c d) : Linked lib store c d := by
  obtain ⟨cs, hcs, hd⟩ := h
  obtain ⟨cs', hcs', hmem⟩ := expand_loose hknown
  obtain rfl := Except.ok.inj ((expand_strict_loose hcs).symm.trans hcs')
  exact (hmem d).mp hd

theorem walkDag_nodup (strict : Bool) : (walkDag lib store (lookBlock store) true strict root).1.Nodup :=
  (run_ends (expand lib (lookBlock store) true strict) root (walkBound lib strict store)).nodup

variable (hknown : ∀ c data, Reachable lib store root c → store.get? c = some data → CodecKnown lib c)

include hknown

theorem reach_loose_iff :
    Reach (expand lib (lookBlock store) true false) root c ↔ Reachable lib store root c := by
  constructor
  · intro h
    induction h with
    | refl => exact .refl
    | @tail m d _ hedge ih =>
      obtain ⟨cs, hcs, hd⟩ := hedge
      obtain ⟨cs', hcs', hmem⟩ := expand_loose (hknown m · ih)
      obtain rfl := Except.ok.inj (hcs.symm.trans hcs')
      exact ih.tail ((hmem d).mp hd)
  · intro h
    induction h with
    | refl => exact .refl
    | @tail m d hm hlink ih =>
      obtain ⟨cs, hcs, hmem⟩ := expand_loose (hknown m · hm)
      exact ih.tail ⟨cs, hcs, (hmem d).mpr hlink⟩

theorem walkDag_loose :
    (walkDag lib store (lookBlock store) true false root).2 = .finished := by
  have hends := run_ends (expand lib (lookBlock store) true false) root (walkBound lib false store)
  cases hout : (walkDag lib store (lookBlock store) true false root).2 with
  | finished => rfl
  | starved => exact absurd hout (walkDag_fed (fun c data hc => Except.ok.inj hc) root)
  | raised e =>
    obtain ⟨c, hlast, hraises⟩ := hends.raised e hout
    have hc := (reach_loose_iff hknown).mp (hends.sound c (List.mem_of_getLast? hlast))
    obtain ⟨cs, hcs, -⟩ := expand_loose (hknown c · hc)
    rw [hcs] at hraises
    contradiction

theorem mem_walkDag_loose :
    c ∈ (walkDag lib store (lookBlock store) true false root).1 ↔ Reachable lib store root c := by
  have hends := run_ends (expand lib (lookBlock store) true false) root (walkBound lib false store)
  constructor
  · exact fun hc => (reach_loose_iff hknown).mp (hends.sound c hc)
  · exact fun hc => hends.complete (walkDag_loose hknown) c ((reach_loose_iff hknown).mpr hc)

theorem reach_strict (h : Reach (expand lib (lookBlock store) true true) root c) :
    Reachable lib store root c := by
  induction h with
  | refl => exact .refl
  | tail _ hedge ih => exact ih.tail (linked_strict (hknown _ · ih) hedge)

theorem walkDag_strict_iff :
    (walkDag lib store (lookBlock store) true true root).2 = .finished ↔
      ∀ c, Reachable lib store root c → ∃ data, store.get? c = some data ∧ Decodes lib c data := by
  have hends := run_ends (expand lib (lookBlock store) true true) root (walkBound lib true store)
  constructor
  · intro hwalk c hc
    have hvisit : Reach (expand lib (lookBlock store) true true) root c := by
      induction hc with
      | refl => exact .refl
      | @tail m d hm hlink ih =>
        obtain ⟨cs, hcs⟩ := run_finished hwalk m (by simpa using hends.complete hwalk m ih)
        obtain ⟨cs', hcs', hmem⟩ := expand_loose (hknown m · hm)
        obtain rfl := Except.ok.inj ((expand_strict_loose hcs).symm.trans hcs')
        exact ih.tail ⟨cs, hcs, (hmem d).mpr hlink⟩
    have hok := run_finished hwalk c (by simpa using hends.complete hwalk c hvisit)
    exact (expand_strict_ok (hknown c · hc)).mp hok
  · intro h
    cases hout : (walkDag lib store (lookBlock store) true true root).2 with
    | finished => rfl
    | starved => exact absurd hout (walkDag_fed (fun c data hc => Except.ok.inj hc) root)
    | raised e =>
      obtain ⟨c, hlast, hraises⟩ := hends.raised e hout
      have hc := reach_strict hknown (hends.sound c (List.mem_of_getLast? hlast))
      obtain ⟨cs, hcs⟩ := (expand_strict_ok (hknown c · hc)).mpr (h c hc)
      rw [hcs] at hraises
      contradiction

end Walk

/-- The walk goes through the graph of the links in any order of its blocks, also around cycles. -/
theorem walkDag_exact (lib : DagLib) (store : Store) (root : Bytes)
    (hknown : ∀ c data, Reachable lib store root c → store.get? c = some data → CodecKnown lib c) :
    let loose := walkDag lib store (lookBlock store) true false root
    (loose.2 = .finished ∧ loose.1.Nodup ∧ loose.1.head? = some root ∧
        ∀ c, c ∈ loose.1 ↔ Reachable lib store root c) ∧
      ((walkDag lib store (lookBlock store) true true root).2 = .finished ↔
        ∀ c, Reachable lib store root c → ∃ data, store.get? c = some data ∧ Decodes lib c data) := by
  refine ⟨⟨walkDag_loose hknown, walkDag_nodup false, ?_, fun c => mem_walkDag_loose hknown⟩,
    walkDag_strict_iff hknown⟩
  exact run_head _ root (by unfold walkBound; omega)

open Gc in
theorem walkDag_exact_link :
    (walkDag linkLib linkStore (lookBlock linkStore) true false KnownCid.linkToA.bytes).2 = .finished ∧
      ∀ c, c ∈ (walkDag linkLib linkStore (lookBlock linkStore) true false KnownCid.linkToA.bytes).1 ↔
        Reachable linkLib linkStore KnownCid.linkToA.bytes c := by
  have hknown (c data : Bytes) (hdata : linkStore.get? c = some data) : CodecKnown linkLib c := by
    have hc : c ∈ linkStore.keys := Dict.mem_keys.mpr ⟨data, hdata⟩
    rcases List.mem_pair.mp hc with rfl | rfl
    · exact ⟨_, _, rfl, rfl⟩
    · exact ⟨_, _, rfl, rfl⟩
  obtain ⟨⟨hfinished, -, -, hreach⟩, -⟩ :=
    walkDag_exact linkLib linkStore KnownCid.linkToA.bytes fun c data _ => hknown c data
  exact ⟨hfinished, hreach⟩

end IpfsLite
