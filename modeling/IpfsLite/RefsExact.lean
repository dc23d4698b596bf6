import IpfsLite.DagExact
import IpfsLite.Lib.DepthFirst
import IpfsLite.Refs

/-!
The links `/api/v0/refs` lists against the links `walk_dag` follows. The route reads every block as
dag-pb, and lists a link again where it meets it again.
-/

namespace IpfsLite.Refs

open DepthFirst (tree)

variable (lib : RefsLib) (net : Network) (blocks : Store)

/-- Reading and writing CIDs are inverse to each other, and no CID is written as the empty string. -/
structure CidLaws : Prop where
  codec_parses : ∀ raw codec, lib.parseCidCodec raw = .ok codec → ∃ c, lib.parseCidBytes raw = .ok c
  bytes_parse : ∀ raw c, lib.parseCidBytes raw = .ok c → lib.cidToBytes c = raw
  str_parse : ∀ raw c, lib.parseCidBytes raw = .ok c → lib.parseCid (lib.cidStr c) = .ok c
  str_ne : ∀ raw c, lib.parseCidBytes raw = .ok c → lib.cidStr c ≠ ""

def obtained (blockstore : Store) (c : Bytes) : Option Bytes :=
  (blockstore.get? c).or (net.getBlock c).toOption.join

def cidOf (s : String) : Option Bytes := (lib.parseCid s).toOption.map lib.cidToBytes

def decodedLinks (data : Bytes) : List PbLink := (lib.decodeLinks data).toOption.getD []

/-- The links that `decode_dag_pb` reads from a block, whatever the codec of its CID. -/
def pbLinks (c : Bytes) : Option (List Bytes) :=
  (blocks.get? c).map fun data => linkChildren lib (decodedLinks lib data)

def linkStrs (links : List PbLink) : List String := links.filterMap fun link => childStr lib link.cid

def strLinks (s : String) : Option (List String) :=
  ((cidOf lib s).bind blocks.get?).map fun data => linkStrs lib (decodedLinks lib data)

section Listing

variable {lib net blocks}

theorem childStr_some (hlaws : CidLaws lib) {raw : Bytes} {s : String} (h : childStr lib raw = some s) :
    cidOf lib s = some raw ∧ s ≠ "" := by
  obtain ⟨c, hc, rfl⟩ := Option.map_eq_some_iff.mp h
  have hparse : lib.parseCidBytes raw = .ok c := by
    cases hp : lib.parseCidBytes raw with
    | error e => simp [hp, Except.toOption] at hc
    | ok c' =>
      rw [hp] at hc
      exact congrArg Except.ok (Option.some.inj hc)
  constructor
  · simp [cidOf, hlaws.str_parse raw c hparse, Except.toOption, hlaws.bytes_parse raw c hparse]
  · exact hlaws.str_ne raw c hparse

theorem strLinks_map (hlaws : CidLaws lib) (s : String) :
    ((cidOf lib s).bind fun c => (pbLinks lib blocks c).map (List.map some)) =
      (strLinks lib blocks s).map (List.map (cidOf lib)) := by
  have hlinks (links : List PbLink) : (linkChildren lib links).map some =
      (linkStrs lib links).map (cidOf lib) := by
    induction links with
    | nil => rfl
    | cons link links ih =>
      cases hc : childStr lib link.cid with
      | none => simpa [linkChildren, linkStrs, hc] using ih
      | some child => simpa [linkChildren, linkStrs, hc, (childStr_some hlaws hc).1] using ih
  cases hs : cidOf lib s with
  | none => simp [strLinks, hs]
  | some c => cases hdata : blocks.get? c <;> simp [strLinks, pbLinks, hs, hdata, hlinks]

theorem tree_cidOf (hlaws : CidLaws lib) {arg : String} {root : Bytes} (harg : cidOf lib arg = some root)
    (n : ℕ) : (tree (strLinks lib blocks) n arg).map (cidOf lib) =
      (tree (pbLinks lib blocks) n root).map some := by
  let links (c : Option Bytes) : Option (List (Option Bytes)) :=
    c.bind fun c => (pbLinks lib blocks c).map (List.map some)
  have hstr : tree links n (cidOf lib arg) = _ := DepthFirst.tree_map (strLinks_map hlaws) n arg
  have hsome (c : Bytes) : links (some c) = (pbLinks lib blocks c).map (List.map some) := rfl
  have hbytes := DepthFirst.tree_map hsome n root
  rw [← hstr, ← hbytes, harg]

theorem localBlock_spec (lib : RefsLib) (net : Network) (blockstore : Store) (s : String) :
    (localBlock lib net blockstore s).2.toOption = (cidOf lib s).bind (obtained net blockstore) ∧
      ∀ c, obtained net (localBlock lib net blockstore s).1 c = obtained net blockstore c := by
  unfold localBlock fetchBlock cidOf
  cases hparse : lib.parseCid s with
  | error e => exact ⟨rfl, fun c => rfl⟩
  | ok cid =>
    cases hdata : blockstore.get? (lib.cidToBytes cid) with
    | some data => simp [Except.toOption, obtained, hdata]
    | none =>
      cases hget : net.getBlock (lib.cidToBytes cid) with
      | error e => simp [Except.toOption, obtained, hdata, hget]
      | ok data? =>
        cases data? with
        | none => simp [Except.toOption, obtained, hdata, hget]
        | some data =>
          by_cases hcache : net.caches (lib.cidToBytes cid) = true
          · refine ⟨by simp [Except.toOption, obtained, hdata, hget, hcache], fun c => ?_⟩
            by_cases hc : c = lib.cidToBytes cid
            · subst hc
              simp [obtained, hcache, hdata, hget, Except.toOption]
            · simp [obtained, hcache, hdata, hget, hc]
          · simp [Except.toOption, obtained, hdata, hget, hcache]

theorem visitStructural_eq (w : Walk) (data : Bytes) : visitStructural lib w data = (w, .ok ()) := by
  simp [visitStructural, extractCids]

theorem linkRefs_ref (links : List PbLink) :
    (links.filterMap (linkRef lib)).map Ref.ref = linkStrs lib links := by
  rw [linkStrs, List.map_filterMap]
  congr 1
  funext link
  cases hc : childStr lib link.cid <;> simp [linkRef, hc]

structure Follows (net : Network) (blocks : Store) (w : Walk) (v : DepthFirst.Listing String)
    (r : Walk × Except Raised Unit) : Prop where
  seen : r.1.seen = v.seen
  out : r.1.out.map Ref.ref = w.out.map Ref.ref ++ v.listed
  ok : r.2.toOption.isSome = v.ok
  obtained : ∀ c, obtained net r.1.blockstore c = blocks.get? c

theorem visitChildren_follows {v : Walk → String → Walk × Except Raised Unit}
    {d : List String → String → DepthFirst.Listing String} (hlaws : CidLaws lib)
    (hv : ∀ w s, (∀ c, obtained net w.blockstore c = blocks.get? c) →
      Follows net blocks w (d w.seen s) (v w s)) (links : List PbLink) :
    ∀ w, (∀ c, obtained net w.blockstore c = blocks.get? c) →
      Follows net blocks w
        (DepthFirst.each d w.seen (linkStrs lib links))
        (visitChildren lib v w (linkChildren lib links)) := by
  induction links with
  | nil =>
    intro w hw
    exact ⟨rfl, by simp [visitChildren, linkChildren, linkStrs, DepthFirst.each_nil], rfl, hw⟩
  | cons link links ih =>
    intro w hw
    cases hc : childStr lib link.cid with
    | none => simpa [linkChildren, linkStrs, hc] using ih w hw
    | some child =>
      have hne : child ≠ "" := (childStr_some hlaws hc).2
      have hchildren : linkChildren lib (link :: links) = link.cid :: linkChildren lib links := by
        simp [linkChildren, hc]
      have hstrs : linkStrs lib (link :: links) = child :: linkStrs lib links := List.filterMap_cons_some hc
      have hfirst := hv w child hw
      rw [hstrs, hchildren, visitChildren]
      simp only [hc, if_neg hne]
      rcases hr : v w child with ⟨w', r⟩
      rw [hr] at hfirst
      cases r with
      | error e =>
        have hok : (d w.seen child).ok = false := hfirst.ok.symm
        rw [DepthFirst.each_cons_fails _ hok]
        exact ⟨hfirst.seen, hfirst.out, hfirst.ok, hfirst.obtained⟩
      | ok u =>
        have hok : (d w.seen child).ok = true := hfirst.ok.symm
        have hrest := ih w' hfirst.obtained
        have hseen : (d w.seen child).seen = w'.seen := hfirst.seen.symm
        rw [DepthFirst.each_cons_ok _ hok, hseen]
        refine ⟨hrest.seen, ?_, hrest.ok, hrest.obtained⟩
        rw [hrest.out, hfirst.out, List.append_assoc]

theorem visitLinks_none {v : Walk → String → Walk × Except Raised Unit} (w : Walk) (data : Bytes) :
    (visitLinks lib v false w data).1.out.map Ref.ref =
        w.out.map Ref.ref ++ linkStrs lib (decodedLinks lib data) ∧
      (visitLinks lib v false w data).1.seen = w.seen ∧
        (visitLinks lib v false w data).1.blockstore = w.blockstore := by
  unfold visitLinks decodedLinks
  cases lib.decodeLinks data <;> simp [Except.toOption, linkRefs_ref, linkStrs]

theorem visitLinks_follows {v : Walk → String → Walk × Except Raised Unit}
    {d : List String → String → DepthFirst.Listing String} (hlaws : CidLaws lib)
    (hv : ∀ w s, (∀ c, obtained net w.blockstore c = blocks.get? c) →
      Follows net blocks w (d w.seen s) (v w s)) (w : Walk) (data : Bytes)
    (hw : ∀ c, obtained net w.blockstore c = blocks.get? c) :
    let children := linkStrs lib (decodedLinks lib data)
    let r := (visitLinks lib v true w data).1
    r.out.map Ref.ref = w.out.map Ref.ref ++ (children ++ (DepthFirst.each d w.seen children).listed) ∧
      r.seen = (DepthFirst.each d w.seen children).seen ∧
        ∀ c, obtained net r.blockstore c = blocks.get? c := by
  unfold visitLinks decodedLinks
  cases hdecode : lib.decodeLinks data with
  | error e => exact ⟨by simp [Except.toOption, linkStrs, DepthFirst.each_nil], rfl, hw⟩
  | ok links =>
    have h := visitChildren_follows hlaws hv links ⟨w.blockstore, w.seen, w.out ++ links.filterMap (linkRef lib)⟩ hw
    refine ⟨?_, h.seen, h.obtained⟩
    simp only [if_true]
    rw [h.out, List.map_append, linkRefs_ref, List.append_assoc]
    rfl

theorem visit_ok {recursive : Bool} {n : ℕ} {w : Walk} {s : String} {blockstore : Store} {data : Bytes}
    (hs : s ∉ w.seen) (h : localBlock lib net w.blockstore s = (blockstore, .ok data)) :
    visit lib net recursive (n + 1) w s = ((visitLinks lib (visit lib net recursive n) recursive
      ⟨blockstore, s :: w.seen, w.out⟩ data).1, .ok ()) := by
  rw [visit, if_neg hs, h]
  rcases hr : visitLinks lib (visit lib net recursive n) recursive ⟨blockstore, s :: w.seen, w.out⟩ data
    with ⟨w', r⟩
  cases r <;> simp [hr, visitStructural_eq]

theorem visit_fails {recursive : Bool} {n : ℕ} {w : Walk} {s : String} {blockstore : Store}
    {e : HttpException} (hs : s ∉ w.seen) (h : localBlock lib net w.blockstore s = (blockstore, .error e)) :
    visit lib net recursive (n + 1) w s = (⟨blockstore, s :: w.seen, w.out⟩, .error (.http e)) := by
  rw [visit, if_neg hs, h]

theorem localBlock_data {blockstore : Store} {s : String} {data : Bytes}
    (hblocks : ∀ c, obtained net blockstore c = blocks.get? c)
    (hdata : (cidOf lib s).bind blocks.get? = some data) :
    ∃ blockstore', localBlock lib net blockstore s = (blockstore', .ok data) ∧
      ∀ c, obtained net blockstore' c = blocks.get? c := by
  obtain ⟨hblock, hview⟩ := localBlock_spec lib net blockstore s
  have hsame : obtained net blockstore = blocks.get? := funext hblocks
  rw [hsame] at hblock hview
  rcases hlocal : localBlock lib net blockstore s with ⟨blockstore', r⟩
  rw [hlocal, hdata] at hblock
  rw [hlocal] at hview
  refine ⟨blockstore', ?_, hview⟩
  cases r with
  | error e => cases hblock
  | ok data' => rw [Option.some.inj hblock]

theorem visit_follows (hlaws : CidLaws lib) (n : ℕ) :
    ∀ w s, (∀ c, obtained net w.blockstore c = blocks.get? c) →
      Follows net blocks w (DepthFirst.visit (strLinks lib blocks) n w.seen s)
        (visit lib net true n w s) := by
  induction n with
  | zero =>
    intro w s hw
    exact ⟨rfl, by simp [visit, DepthFirst.visit], rfl, hw⟩
  | succ n ih =>
    intro w s hw
    by_cases hs : s ∈ w.seen
    · rw [DepthFirst.visit_seen hs, visit, if_pos hs]
      exact ⟨rfl, by simp, rfl, hw⟩
    · obtain ⟨hblock, hview⟩ := localBlock_spec lib net w.blockstore s
      have hsame : obtained net w.blockstore = blocks.get? := funext hw
      rw [hsame] at hblock hview
      rcases hlocal : localBlock lib net w.blockstore s with ⟨blockstore, r⟩
      rw [hlocal] at hblock hview
      cases r with
      | error e =>
        have hnone : strLinks lib blocks s = none := by
          rw [strLinks, ← hblock]
          rfl
        rw [DepthFirst.visit_none hs hnone, visit_fails hs hlocal]
        exact ⟨rfl, by simp, rfl, hview⟩
      | ok data =>
        have hsome : strLinks lib blocks s = some (linkStrs lib (decodedLinks lib data)) := by
          rw [strLinks, ← hblock]
          rfl
        have h := visitLinks_follows hlaws ih ⟨blockstore, s :: w.seen, w.out⟩ data hview
        rw [DepthFirst.visit_some hs hsome, visit_ok hs hlocal]
        exact ⟨h.2.1, h.1, rfl, h.2.2⟩

def depth (recursive : Bool) (frames : ℕ) : ℕ := if recursive then frames + 1 else 1

theorem refs_listed (hlaws : CidLaws lib) {blockstore : Store} {arg : String} {root data : Bytes}
    (hblocks : ∀ c, obtained net blockstore c = blocks.get? c) (harg : cidOf lib arg = some root)
    (hroot : blocks.get? root = some data) (recursive : Bool) (frames : ℕ) :
    ∃ refs, refsLocalObject lib net frames blockstore arg recursive = .ok refs ∧
      refs.map Ref.ref =
        (DepthFirst.visit (strLinks lib blocks) (depth recursive frames) [] arg).listed := by
  have hdata : (cidOf lib arg).bind blocks.get? = some data := by
    rw [harg]
    exact hroot
  obtain ⟨first, hfirst, hview⟩ := localBlock_data hblocks hdata
  obtain ⟨second, hsecond, -⟩ := localBlock_data hview hdata
  have hvisit : visit lib net recursive (frames + 1) ⟨first, [], []⟩ arg = _ := visit_ok (by simp) hsecond
  refine ⟨(visit lib net recursive (frames + 1) ⟨first, [], []⟩ arg).1.out, ?_, ?_⟩
  · simp only [refsLocalObject, hfirst, hvisit]
  · cases recursive with
    | true => exact (visit_follows hlaws (frames + 1) ⟨first, [], []⟩ arg hview).out
    | false =>
      have hlinks : strLinks lib blocks arg = some (linkStrs lib (decodedLinks lib data)) := by
        rw [strLinks, hdata]
        rfl
      rw [hvisit, (visitLinks_none _ data).1]
      simp only [depth, Bool.false_eq_true, if_false]
      rw [DepthFirst.visit_one ⟨_, hlinks⟩, DepthFirst.tree_some 0 hlinks]
      simp [tree]

end Listing

def Below (recursive : Bool) (root c : Bytes) : Prop :=
  if recursive then c ≠ root ∧ Reachable lib.toDagLib blocks root c else Linked lib.toDagLib blocks root c

/-- Opened out from the root, the links that `decode_dag_pb` reads have no CID twice, and are those that
the codecs of the blocks lead to. -/
structure PbTree (recursive : Bool) (frames : ℕ) (root : Bytes) : Prop where
  nodup : (tree (pbLinks lib blocks) (depth recursive frames) root).Nodup
  mem_iff : ∀ c, c ∈ tree (pbLinks lib blocks) (depth recursive frames) root ↔ Below lib blocks recursive root c

def directLinks (root : Bytes) : List Bytes :=
  match blocks.get? root with
  | none => []
  | some data => (blockLinks lib.toDagLib false root data).toOption.getD []

def expectedRefs (recursive : Bool) (root : Bytes) : List Bytes :=
  if recursive then (walkDag lib.toDagLib blocks (lookBlock blocks) true false root).1.erase root
  else (directLinks lib blocks root).dedup

def Agrees (recursive : Bool) (frames : ℕ) (blockstore : Store) (arg : String) (root : Bytes) : Prop :=
  ∃ refs, refsLocalObject lib net frames blockstore arg recursive = .ok refs ∧
    (refs.map fun r => cidOf lib r.ref).Perm ((expectedRefs lib blocks recursive root).map some)

section Agreement

variable {lib net blocks} {root : Bytes}

def WholeDag (lib : RefsLib) (blocks : Store) (root : Bytes) : Prop :=
  ∀ c, Reachable lib.toDagLib blocks root c →
    (∃ data, blocks.get? c = some data) ∧ CodecKnown lib.toDagLib c

theorem expectedRefs_iff (hdag : WholeDag lib blocks root) (recursive : Bool) :
    (expectedRefs lib blocks recursive root).Nodup ∧
      ∀ c, c ∈ expectedRefs lib blocks recursive root ↔ Below lib blocks recursive root c := by
  cases recursive with
  | true =>
    have hnodup : (walkDag lib.toDagLib blocks (lookBlock blocks) true false root).1.Nodup := walkDag_nodup false
    have hmem (c : Bytes) : c ∈ (walkDag lib.toDagLib blocks (lookBlock blocks) true false root).1 ↔
        Reachable lib.toDagLib blocks root c := mem_walkDag_loose fun c _ hc _ => (hdag c hc).2
    refine ⟨hnodup.erase root, fun c => ?_⟩
    simp [expectedRefs, Below, hnodup.mem_erase_iff, hmem]
  | false =>
    obtain ⟨⟨data, hdata⟩, hknown⟩ := hdag root .refl
    obtain ⟨cs, hcs, hmem⟩ := blockLinks_loose hknown data
    refine ⟨List.nodup_dedup _, fun c => ?_⟩
    simp [expectedRefs, Below, directLinks, hdata, hcs, Except.toOption, hmem, Linked]

theorem Below.available {recursive : Bool} {c : Bytes} (hdag : WholeDag lib blocks root)
    (h : Below lib blocks recursive root c) : ∃ data, blocks.get? c = some data := by
  cases recursive with
  | true => exact (hdag c h.2).1
  | false => exact (hdag c (.single h)).1

theorem strLinks_available {s : String} {c data : Bytes} (hs : cidOf lib s = some c)
    (hdata : blocks.get? c = some data) : ∃ cs, strLinks lib blocks s = some cs := by
  exact ⟨_, by rw [strLinks, hs, Option.bind_some, hdata, Option.map_some]⟩

theorem fresh_of_perm {arg : String} {listed : List String} (hdag : WholeDag lib blocks root)
    (harg : cidOf lib arg = some root)
    (hperm : (listed.map (cidOf lib)).Perm ((expectedRefs lib blocks true root).map some)) :
    DepthFirst.Fresh (strLinks lib blocks) [] (arg :: listed) := by
  obtain ⟨hnodup, hmem⟩ := expectedRefs_iff hdag true
  have hbelow (s : String) (hs : s ∈ listed) : ∃ c, cidOf lib s = some c ∧ Below lib blocks true root c := by
    have h := hperm.subset (List.mem_map_of_mem hs)
    obtain ⟨c, hc, hsome⟩ := List.mem_map.mp h
    exact ⟨c, hsome.symm, (hmem c).mp hc⟩
  have hdistinct : listed.Nodup := by
    apply List.Nodup.of_map (cidOf lib)
    exact hperm.nodup_iff.mpr (hnodup.map (Option.some_injective _))
  have hroot : arg ∉ listed := by
    intro h
    obtain ⟨c, hc, hb⟩ := hbelow arg h
    exact hb.1 (Option.some.inj (hc.symm.trans harg))
  refine ⟨List.nodup_cons.mpr ⟨hroot, hdistinct⟩, by simp, ?_⟩
  intro s hs
  rcases List.mem_cons.mp hs with rfl | hs
  · obtain ⟨data, hdata⟩ := (hdag root .refl).1
    exact strLinks_available harg hdata
  · obtain ⟨c, hc, hb⟩ := hbelow s hs
    obtain ⟨data, hdata⟩ := hb.available hdag
    exact strLinks_available hc hdata

theorem listed_eq_tree {arg : String} (hdag : WholeDag lib blocks root) (harg : cidOf lib arg = some root)
    {recursive : Bool} {frames : ℕ} {listed : List String}
    (hlisted : listed = (DepthFirst.visit (strLinks lib blocks) (depth recursive frames) [] arg).listed ∨
      listed = tree (strLinks lib blocks) (depth recursive frames) arg)
    (hperm : (listed.map (cidOf lib)).Perm ((expectedRefs lib blocks recursive root).map some)) :
    (DepthFirst.visit (strLinks lib blocks) (depth recursive frames) [] arg).listed =
      tree (strLinks lib blocks) (depth recursive frames) arg := by
  cases recursive with
  | false =>
    obtain ⟨data, hdata⟩ := (hdag root .refl).1
    exact DepthFirst.visit_one (strLinks_available harg hdata)
  | true =>
    have hfresh := fresh_of_perm hdag harg hperm
    rcases hlisted with rfl | rfl
    · exact (DepthFirst.visit_complete (strLinks lib blocks) frames [] arg hfresh).2
    · exact DepthFirst.visit_eq_tree hfresh

theorem pbTree_iff (hdag : WholeDag lib blocks root) (recursive : Bool) (frames : ℕ) :
    PbTree lib blocks recursive frames root ↔
      ((tree (pbLinks lib blocks) (depth recursive frames) root).map some).Perm
        ((expectedRefs lib blocks recursive root).map some) := by
  obtain ⟨hnodup, hmem⟩ := expectedRefs_iff hdag recursive
  rw [List.map_perm_map_iff (Option.some_injective _)]
  constructor
  · intro h
    apply (List.perm_ext_iff_of_nodup h.nodup hnodup).mpr
    intro c
    rw [h.mem_iff, hmem]
  · intro h
    refine ⟨h.nodup_iff.mpr hnodup, fun c => ?_⟩
    rw [h.mem_iff, hmem]

end Agreement

/-- `blocks` are the blocks that can be had, locally or from the network. -/
theorem refs_agrees_iff (lib : RefsLib) (hlaws : CidLaws lib) (net : Network) (blockstore blocks : Store)
    (hblocks : ∀ c, obtained net blockstore c = blocks.get? c) (arg : String) (root : Bytes)
    (harg : cidOf lib arg = some root) (hdag : WholeDag lib blocks root) (recursive : Bool) (frames : ℕ) :
    Agrees lib net blocks recursive frames blockstore arg root ↔ PbTree lib blocks recursive frames root := by
  obtain ⟨data, hdata⟩ := (hdag root .refl).1
  obtain ⟨refs, hrefs, hlisted⟩ := refs_listed hlaws hblocks harg hdata recursive frames
  have hcids : refs.map (fun r => cidOf lib r.ref) = (refs.map Ref.ref).map (cidOf lib) := by
    rw [List.map_map]
    rfl
  rw [pbTree_iff hdag, ← tree_cidOf hlaws harg]
  constructor
  · rintro ⟨refs', hrefs', hperm⟩
    obtain rfl := Except.ok.inj (hrefs.symm.trans hrefs')
    rw [hcids, hlisted] at hperm
    rwa [listed_eq_tree hdag harg (.inl rfl) hperm] at hperm
  · intro hperm
    refine ⟨refs, hrefs, ?_⟩
    rwa [hcids, hlisted, listed_eq_tree hdag harg (.inr rfl) hperm]

section Sample

def RefsLib.ofTable (cids : List KnownCid) (pb : List (Bytes × List PbLink))
    (json cbor : List (Bytes × PyValue)) : RefsLib where
  toCidLib := .ofTable cids
  decodeDagPb data :=
    (decodeTable .decodeError pb data).map fun links => ⟨links.map fun link => some link.cid, .none⟩
  jsonLoads := decodeTable .valueError json
  cborLoads := decodeTable .cborError cbor
  cidStr row := row.str
  decodeLinks := decodeTable .decodeError pb
  decodeDagPb_links data := by cases decodeTable .decodeError pb data <;> rfl

theorem ofTable_laws {cids : List KnownCid} (pb : List (Bytes × List PbLink))
    (json cbor : List (Bytes × PyValue)) (hdistinct : (cids.map KnownCid.str).Nodup)
    (hne : "" ∉ cids.map KnownCid.str) : CidLaws (.ofTable cids pb json cbor) := by
  have hfind (row : KnownCid) (hrow : row ∈ cids) : (CidLib.ofTable cids).parseCid row.str = .ok row := by
    cases h : (CidLib.ofTable cids).parseCid row.str with
    | ok row' =>
      obtain ⟨hrow', hstr⟩ := ofTable_parseCid h
      rw [List.inj_on_of_nodup_map hdistinct hrow' hrow hstr]
    | error e =>
      simp only [CidLib.ofTable] at h
      split at h
      · contradiction
      · next hnone => simpa using List.find?_eq_none.mp hnone row hrow
  refine ⟨?_, ?_, ?_, ?_⟩
  · intro raw codec h
    simp only [RefsLib.ofTable, CidLib.ofTable] at h ⊢
    split at h
    · exact ⟨_, rfl⟩
    · contradiction
  · intro raw row h
    exact (ofTable_parseCidBytes h).2
  · intro raw row h
    exact hfind row (ofTable_parseCidBytes h).1
  · intro raw row h hstr
    apply hne
    rw [← hstr]
    exact List.mem_map_of_mem (ofTable_parseCidBytes h).1

def pbToA : PbLink := ⟨KnownCid.rawA.bytes, "", 1⟩

def refsLib : RefsLib :=
  .ofTable [KnownCid.rawA, KnownCid.linkToA, KnownCid.twiceA, KnownCid.xThenA]
    [(KnownCid.twiceAData, [pbToA, pbToA]), (KnownCid.xThenAData, [pbToA])] []
    [(KnownCid.linkToAData, .cborTag 42 (.bytes (0 :: KnownCid.rawA.bytes)))]

def refsStore : Store :=
  .ofList [(KnownCid.rawA.bytes, [97]), (KnownCid.linkToA.bytes, KnownCid.linkToAData),
    (KnownCid.twiceA.bytes, KnownCid.twiceAData), (KnownCid.xThenA.bytes, KnownCid.xThenAData)]

def offline : Network where
  getBlock _ := .ok none
  caches _ := false

theorem refsLib_laws : CidLaws refsLib := by
  apply ofTable_laws
  · decide
  · decide

theorem offline_obtained (blockstore : Store) (c : Bytes) : obtained offline blockstore c = blockstore.get? c := by
  simp [obtained, offline, Except.toOption]

theorem refsStore_block {c data : Bytes} (links : List Bytes) (hknown : CodecKnown refsLib.toDagLib c)
    (hdata : refsStore.get? c = some data) (hlinks : blockLinks refsLib.toDagLib false c data = .ok links)
    (hkeys : ∀ d ∈ links, d ∈ refsStore.keys) : CodecKnown refsLib.toDagLib c ∧
      ∀ d, Linked refsLib.toDagLib refsStore c d → d ∈ refsStore.keys := by
  refine ⟨hknown, ?_⟩
  rintro d ⟨data', hdata', hd⟩
  obtain rfl := Option.some.inj (hdata.symm.trans hdata')
  obtain ⟨cs, hcs, hmem⟩ := blockLinks_loose hknown data
  obtain rfl := Except.ok.inj (hlinks.symm.trans hcs)
  exact hkeys d ((hmem d).mpr hd)

theorem refsStore_closed : ∀ c ∈ refsStore.keys, CodecKnown refsLib.toDagLib c ∧
    ∀ d, Linked refsLib.toDagLib refsStore c d → d ∈ refsStore.keys := by
  have hkeys : refsStore.keys = [KnownCid.rawA.bytes, KnownCid.linkToA.bytes, KnownCid.twiceA.bytes,
    KnownCid.xThenA.bytes] := rfl
  have hA : KnownCid.rawA.bytes ∈ refsStore.keys := by simp [hkeys]
  intro c hc
  rw [hkeys] at hc
  simp only [List.mem_cons, List.not_mem_nil, or_false] at hc
  rcases hc with rfl | rfl | rfl | rfl
  · exact refsStore_block [] ⟨_, _, rfl, rfl⟩ rfl rfl (by simp)
  · exact refsStore_block [KnownCid.rawA.bytes] ⟨_, _, rfl, rfl⟩ rfl rfl (by simp [hA])
  · exact refsStore_block [KnownCid.rawA.bytes, KnownCid.rawA.bytes] ⟨_, _, rfl, rfl⟩ rfl rfl (by simp [hA])
  · exact refsStore_block [KnownCid.rawA.bytes] ⟨_, _, rfl, rfl⟩ rfl rfl (by simp [hA])

theorem refsStore_wholeDag {root : Bytes} (hroot : root ∈ refsStore.keys) : WholeDag refsLib refsStore root := by
  have hkeys (c : Bytes) (h : Reachable refsLib.toDagLib refsStore root c) : c ∈ refsStore.keys := by
    induction h with
    | refl => exact hroot
    | tail _ hlink ih => exact (refsStore_closed _ ih).2 _ hlink
  intro c h
  exact ⟨Dict.mem_keys.mp (hkeys c h), (refsStore_closed c (hkeys c h)).1⟩

theorem refs_agrees_file :
    Agrees refsLib offline refsStore true 100 refsStore KnownCid.xThenA.str KnownCid.xThenA.bytes ↔
      PbTree refsLib refsStore true 100 KnownCid.xThenA.bytes :=
  refs_agrees_iff refsLib refsLib_laws offline refsStore refsStore (offline_obtained refsStore)
    KnownCid.xThenA.str KnownCid.xThenA.bytes rfl (refsStore_wholeDag (by decide)) true 100

/-- A file of two links to one block lists it twice, and a dag-cbor link lists nothing. -/
theorem refs_agrees_fails :
    WholeDag refsLib refsStore KnownCid.twiceA.bytes ∧ WholeDag refsLib refsStore KnownCid.linkToA.bytes ∧
      ¬Agrees refsLib offline refsStore false 100 refsStore KnownCid.twiceA.str KnownCid.twiceA.bytes ∧
      ¬Agrees refsLib offline refsStore false 100 refsStore KnownCid.linkToA.str KnownCid.linkToA.bytes := by
  refine ⟨refsStore_wholeDag (by decide), refsStore_wholeDag (by decide), ?_, ?_⟩
  · rintro ⟨refs, hrefs, hperm⟩
    have htwo : refs.length = 2 := by
      rw [← Except.ok.inj hrefs]
      rfl
    have hone : (expectedRefs refsLib refsStore false KnownCid.twiceA.bytes).length = 1 := by decide
    have h := hperm.length_eq
    simp [htwo, hone] at h
  · rintro ⟨refs, hrefs, hperm⟩
    have hzero : refs.length = 0 := by
      rw [← Except.ok.inj hrefs]
      rfl
    have hone : (expectedRefs refsLib refsStore false KnownCid.linkToA.bytes).length = 1 := by decide
    have h := hperm.length_eq
    simp [hzero, hone] at h

end Sample

end IpfsLite.Refs
