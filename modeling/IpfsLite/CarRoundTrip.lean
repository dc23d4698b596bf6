import IpfsLite.CarExport

namespace IpfsLite.Car

open Leb128 Worklist

inductive WellFormedCid : Bytes → Prop
  | v0 (digest : Bytes) (h : digest.length = 32) : WellFormedCid (0x12 :: 0x20 :: digest)
  | v1 (codec mhCode : ℕ) (digest : Bytes) :
      WellFormedCid (encode 1 ++ (encode codec ++ (encode mhCode ++ (encode digest.length ++ digest))))

theorem WellFormedCid.ne_nil {c : Bytes} (h : WellFormedCid c) : c ≠ [] := by
  cases h with
  | v0 digest h => simp
  | v1 codec mhCode digest => exact List.append_ne_nil_of_left_ne_nil (encode_encodes 1).ne_nil _

/-- What the code relies on in the packages that write and read varints, CIDs and the header. -/
structure Faithful (lib : CarLib) : Prop where
  varint_encode : lib.varintEncode = encode
  varint_decode : ∀ n rest, lib.varintDecode (encode n ++ rest) = .ok (n, rest)
  header : ∀ s cid, lib.parseCid s = .ok cid →
    lib.cborLoads (lib.cborDumps (carHeader (lib.cidToBytes cid))) = .ok (carHeader (lib.cidToBytes cid))
  cid_bytes : ∀ s cid, lib.parseCid s = .ok cid → lib.parseCidBytes (lib.cidToBytes cid) = .ok cid
  cid_str : ∀ s cid, lib.parseCid s = .ok cid →
    (lib.parseCid (lib.formatCidForDisplay cid)).map lib.cidToBytes = .ok (lib.cidToBytes cid)
  codec : ∀ s codec, lib.normaliseCodec s = .ok codec → (codec.isDagPb = true ↔ codec.str = "dag-pb")

variable {lib : CarLib} {f : FileReads} {strict : Bool}

theorem getCidLen_cid (hv : ∀ n rest, lib.varintDecode (encode n ++ rest) = .ok (n, rest)) {c : Bytes}
    (hc : WellFormedCid c) (data : Bytes) (hsize : c.length ≤ sysMaxsize) :
    getCidLen lib (c ++ data) = .ok c.length := by
  cases hc with
  | v0 digest h =>
    have hlen : 34 ≤ (0x12 :: 0x20 :: digest ++ data).length := by
      simp only [List.cons_append, List.length_cons, List.length_append]
      omega
    rw [getCidLen, if_pos ⟨hlen, rfl, rfl⟩]
    simp [h]
  | v1 codec mhCode digest =>
    have hfirst : ∀ rest : Bytes, (encode 1 ++ rest)[0]? ≠ some 0x12 := by
      intro rest
      rw [show encode 1 = [1] from rfl]
      simp
    unfold getCidLen
    rw [if_neg (by simp only [List.append_assoc]; exact fun h => hfirst _ h.2.1)]
    simp only [List.append_assoc, hv, bind, Except.bind]
    have hdigest : ¬sysMaxsize < digest.length := by
      simp only [List.length_append] at hsize
      omega
    rw [if_neg hdigest, List.drop_left]
    congr 1
    simp only [List.length_append]
    omega

theorem sectionFrame_eq (hl : Faithful lib) (b : Bytes × Bytes) : sectionFrame lib b = frame (body b) := by
  rw [sectionFrame, frame, body, hl.varint_encode, List.length_append, List.append_assoc]

theorem readBlock_body (hl : Faithful lib) {b : Bytes × Bytes} (hc : WellFormedCid b.1)
    (hm : MatchesMultihash lib b) (hsize : (body b).length ≤ sysMaxsize) :
    readBlock lib (body b) = .ok b := by
  have hcid : b.1.length ≤ sysMaxsize := by
    rw [body, List.length_append] at hsize
    omega
  apply readBlock_ok.mpr
  refine ⟨b.1.length, getCidLen_cid hl.varint_decode hc b.2 hcid, ?_, hm⟩
  simp [body]

theorem readBlocks_frames (hl : Faithful lib) (blocks : List (Bytes × Bytes))
    (hc : ∀ b ∈ blocks, WellFormedCid b.1) (hm : ∀ b ∈ blocks, MatchesMultihash lib b)
    (hsize : (blocks.flatMap (sectionFrame lib)).length ≤ sysMaxsize) (k : ℕ)
    (hk : (blocks.flatMap (sectionFrame lib)).length ≤ k) (puts : List (Bytes × Bytes)) :
    readBlocks lib f .none k (blocks.flatMap (sectionFrame lib)) puts = (puts ++ blocks, .ok ()) := by
  induction blocks generalizing k puts with
  | nil => cases k <;> simp [readBlocks, readVarint, readVarintFrom]
  | cons b blocks ih =>
    rw [List.flatMap_cons, sectionFrame_eq hl, frame, List.append_assoc] at hsize hk ⊢
    simp only [List.length_append] at hsize hk
    have hpos := List.length_pos_of_ne_nil (encode_encodes (body b).length).ne_nil
    obtain ⟨k, rfl⟩ : ∃ m, k = m + 1 := ⟨k - 1, by omega⟩
    have hcid := hc b (by simp)
    have hne : body b ≠ [] := List.append_ne_nil_of_left_ne_nil hcid.ne_nil _
    have hexactly : readExactly f (body b).length (body b ++ blocks.flatMap (sectionFrame lib)) =
        .ok (body b, blocks.flatMap (sectionFrame lib)) :=
      readExactly_ok.mpr ⟨by omega, rfl, rfl⟩
    have hblock := readBlock_body hl hcid (hm b (by simp)) (by omega)
    simp only [readBlocks, readVarint_encode, hexactly, if_neg hne, hblock, StoreFaults.none]
    have hrest := ih (fun b hb => hc b (by simp [hb])) (fun b hb => hm b (by simp [hb])) (by omega) k
      (by omega) (puts ++ [b])
    rw [List.append_assoc] at hrest
    exact hrest

theorem headerRoots_carHeader (hl : Faithful lib) {s : String} {root : lib.Cid}
    (hroot : lib.parseCid s = .ok root) :
    headerRoots lib (carHeader (lib.cidToBytes root)) = .ok [lib.formatCidForDisplay root] := by
  have hversion : (carHeader (lib.cidToBytes root)).get lib.toPyLib "version" = .ok (some (.int 1)) := rfl
  have hroots : (carHeader (lib.cidToBytes root)).get lib.toPyLib "roots" =
      .ok (some (.list [.cborTag 42 (.bytes (0 :: lib.cidToBytes root))])) := rfl
  have hone : isVersionOne (some (.int 1)) = true := by decide
  simp only [headerRoots, hversion, hroots, bind, Except.bind, hone, if_true, Option.getD_some,
    PyValue.iter, rootStrs, rootStr, PyValue.dropFirst, parseCidValue, List.drop_one, List.tail_cons,
    hl.cid_bytes s root hroot, Except.map, List.append_nil]

theorem readHeader_headerFrame (hl : Faithful lib) {s : String} {root : lib.Cid}
    (hroot : lib.parseCid s = .ok root) (rest : Bytes)
    (hsize : (headerFrame lib (lib.cidToBytes root)).length ≤ sysMaxsize) :
    ∃ n tail, readVarint (headerFrame lib (lib.cidToBytes root) ++ rest) = .ok (n, tail) ∧
      readHeader lib f n tail = .ok ([lib.formatCidForDisplay root], rest) := by
  rw [headerFrame, hl.varint_encode] at hsize ⊢
  rw [List.length_append] at hsize
  have hexactly : readExactly f (lib.cborDumps (carHeader (lib.cidToBytes root))).length
      (lib.cborDumps (carHeader (lib.cidToBytes root)) ++ rest) = .ok (_, rest) :=
    readExactly_ok.mpr ⟨by omega, rfl, rfl⟩
  rw [List.append_assoc]
  refine ⟨_, _, readVarint_encode _ _, ?_⟩
  simp only [readHeader, hexactly, bind, Except.bind, hl.header s root hroot,
    headerRoots_carHeader hl hroot]

theorem putAll_get? {blocks : List (Bytes × Bytes)} (hn : (blocks.map Prod.fst).Nodup) (store : Store)
    {b : Bytes × Bytes} (hb : b ∈ blocks) : (putAll store blocks).get? b.1 = some b.2 := by
  have hother (bs : List (Bytes × Bytes)) (s : Store) (c : Bytes) (hc : c ∉ bs.map Prod.fst) :
      (putAll s bs).get? c = s.get? c := by
    induction bs generalizing s with
    | nil => rfl
    | cons e bs ih =>
      rw [List.map_cons, List.mem_cons, not_or] at hc
      have hrest := ih (s.set e.1 e.2) hc.2
      rw [Dict.get?_set, if_neg hc.1] at hrest
      exact hrest
  induction blocks generalizing store with
  | nil => simp at hb
  | cons e blocks ih =>
    obtain ⟨hfresh, hn⟩ := List.nodup_cons.mp hn
    rcases List.mem_cons.mp hb with rfl | hb
    · have hkept := hother blocks (store.set b.1 b.2) b.1 hfresh
      rw [Dict.get?_set, if_pos rfl] at hkept
      exact hkept
    · exact ih hn (store.set e.1 e.2) hb

theorem importCar_frames (f : FileReads) (strict : Bool) (hl : Faithful lib) {s : String} {root : lib.Cid}
    (hroot : lib.parseCid s = .ok root) {blocks : List (Bytes × Bytes)}
    (hc : ∀ b ∈ blocks, WellFormedCid b.1) (hm : ∀ b ∈ blocks, MatchesMultihash lib b) (dest : Store)
    {content : Bytes} (hcontent : content = headerFrame lib (lib.cidToBytes root) ++
      blocks.flatMap (sectionFrame lib)) (hsize : content.length ≤ sysMaxsize) :
    (importCar lib f .none strict dest content).1 = blocks ∧
      ((importCar lib f .none strict dest content).2 = .ok [lib.formatCidForDisplay root] ↔
        checkRoots lib .none strict (putAll dest blocks) 0 [lib.formatCidForDisplay root] = .ok ()) := by
  rw [hcontent, List.length_append] at hsize
  obtain ⟨n, tail, hvarint, hheader⟩ := readHeader_headerFrame (f := f) hl hroot
    (blocks.flatMap (sectionFrame lib)) (by omega)
  have hblocks := readBlocks_frames (f := f) hl blocks hc hm (by omega) _ le_rfl []
  rw [hcontent]
  simp only [importCar, hvarint, hheader, hblocks, List.nil_append]
  cases checkRoots lib .none strict (putAll dest blocks) 0 [lib.formatCidForDisplay root] with
  | error e => simp
  | ok u => simp

theorem checkRoots_present (hl : Faithful lib) {s : String} {root : lib.Cid}
    (hroot : lib.parseCid s = .ok root) {store : Store} {data : Bytes}
    (hp : store.get? (lib.cidToBytes root) = some data) :
    checkRoots lib .none strict store 0 [lib.formatCidForDisplay root] = .ok () ↔
      (strict = true → (walkDag lib.toDagLib store (getBlock .none store 0) true true
        (lib.cidToBytes root)).2 = .finished) := by
  obtain ⟨shown, hshown, hbytes⟩ := map_ok.mp (hl.cid_str s root hroot)
  have hhas : hasBlock lib .none store 0 (lib.formatCidForDisplay root) = .ok true := by
    simp [hasBlock, hshown, hbytes, hp, StoreFaults.none, bind, Except.bind]
  have hfed : (walkDag lib.toDagLib store (getBlock .none store 0) true true
      (lib.cidToBytes root)).2 ≠ .starved := by
    apply walkDag_fed
    intro c data h
    simpa [getBlock, StoreFaults.none] using h
  simp only [checkRoots, checkRoot, hhas, bind, Except.bind, if_true]
  cases strict with
  | false => simp
  | true =>
    simp only [if_true, walkRoot, hshown, hbytes, bind, Except.bind, forall_const]
    cases ho : (walkDag lib.toDagLib store (getBlock .none store 0) true true
      (lib.cidToBytes root)).2 with
    | finished => simp
    | raised e => simp
    | starved => exact absurd ho hfed

theorem Exports.strict_links (hl : Faithful lib) {source : Store} {root : Bytes}
    {blocks : List (Bytes × Bytes)} (he : Exports lib source root blocks) {b : Bytes × Bytes}
    (hb : b ∈ blocks) {cs : List Bytes} (hcs : blockLinks lib.toDagLib true b.1 b.2 = .ok cs) :
    storeLinks lib source b.1 = .ok cs := by
  simp only [storeLinks, he.stored b hb]
  rw [exportLinks_eq hl.codec]
  exact blockLinks_strict hcs

theorem Exports.mem_of_reach {source : Store} {root : Bytes} {blocks : List (Bytes × Bytes)}
    (he : Exports lib source root blocks) {c : Bytes} (hc : Reach (storeLinks lib source) root c) :
    ∃ data, (c, data) ∈ blocks := by
  obtain ⟨b, hb, rfl⟩ := List.mem_map.mp ((he.mem_iff c).mpr hc)
  exact ⟨b.2, hb⟩

theorem strictWalk_finished (hl : Faithful lib) {source store : Store} {root : Bytes}
    {blocks : List (Bytes × Bytes)} (he : Exports lib source root blocks)
    (hs : ∀ b ∈ blocks, store.get? b.1 = some b.2) :
    (walkDag lib.toDagLib store (getBlock .none store 0) true true root).2 = .finished ↔
      ∀ b ∈ blocks, ∃ cs, blockLinks lib.toDagLib true b.1 b.2 = .ok cs := by
  have hvisit (c data : Bytes) (hb : (c, data) ∈ blocks) :
      expand lib.toDagLib (getBlock .none store 0) true true c =
        blockLinks lib.toDagLib true c data := by
    have hget := hs (c, data) hb
    simp [expand, getBlock, StoreFaults.none, hget, blockOrMissing, Except.bind]
  have hends := run_ends (expand lib.toDagLib (getBlock .none store 0) true true) root
    (walkBound lib.toDagLib true store)
  constructor
  · intro hfin b hb
    have hok := run_finished hfin
    have hvisited (c : Bytes) (hc : Reach (storeLinks lib source) root c) :
        Reach (expand lib.toDagLib (getBlock .none store 0) true true) root c := by
      induction hc with
      | refl => exact .refl
      | @tail m d hm hedge ih =>
        obtain ⟨cs, hcs, hd⟩ := hedge
        obtain ⟨data, hmem⟩ := he.mem_of_reach hm
        obtain ⟨cs', hcs'⟩ := hok m (by simpa using hends.complete hfin m ih)
        have hlinks := he.strict_links hl hmem ((hvisit m data hmem).symm.trans hcs')
        obtain rfl : cs = cs' := Except.ok.inj (hcs.symm.trans hlinks)
        exact ih.tail ⟨cs, hcs', hd⟩
    have hreach := hvisited b.1 ((he.mem_iff b.1).mp (List.mem_map_of_mem hb))
    obtain ⟨cs, hcs⟩ := hok b.1 (by simpa using hends.complete hfin b.1 hreach)
    exact ⟨cs, (hvisit b.1 b.2 hb).symm.trans hcs⟩
  · intro hall
    have hreach (c : Bytes) (hc : Reach (expand lib.toDagLib (getBlock .none store 0) true true) root c) :
        Reach (storeLinks lib source) root c := by
      induction hc with
      | refl => exact .refl
      | @tail m d _ hedge ih =>
        obtain ⟨cs, hcs, hd⟩ := hedge
        obtain ⟨data, hmem⟩ := he.mem_of_reach ih
        exact ih.tail ⟨cs, he.strict_links hl hmem ((hvisit m data hmem).symm.trans hcs), hd⟩
    cases ho : (walkDag lib.toDagLib store (getBlock .none store 0) true true root).2 with
    | finished => rfl
    | starved =>
      refine absurd ho (walkDag_fed (fun c data h => ?_) root)
      simpa [getBlock, StoreFaults.none] using h
    | raised e =>
      obtain ⟨c, hlast, hc⟩ := hends.raised e ho
      obtain ⟨data, hmem⟩ := he.mem_of_reach (hreach c (hends.sound c (List.mem_of_getLast? hlast)))
      obtain ⟨cs, hcs⟩ := hall (c, data) hmem
      rw [hvisit c data hmem, hcs] at hc
      contradiction

theorem Exports.importCar (hl : Faithful lib) {cidStr : String} {root : lib.Cid}
    (hroot : lib.parseCid cidStr = .ok root) {source : Store} {blocks : List (Bytes × Bytes)}
    (he : Exports lib source (lib.cidToBytes root) blocks)
    (hcids : ∀ b ∈ source.entries, WellFormedCid b.1 ∧ MatchesMultihash lib b) (f : FileReads) (strict : Bool)
    (dest : Store) {content : Bytes}
    (hcontent : content = headerFrame lib (lib.cidToBytes root) ++ blocks.flatMap (sectionFrame lib))
    (hsize : content.length ≤ sysMaxsize) :
    (importCar lib f .none strict dest content).1 = blocks ∧
      ((importCar lib f .none strict dest content).2 = .ok [lib.formatCidForDisplay root] ↔
        (strict = true → ∀ b ∈ blocks, ∃ cs, blockLinks lib.toDagLib true b.1 b.2 = .ok cs)) := by
  have hstored (b : Bytes × Bytes) (hb : b ∈ blocks) : WellFormedCid b.1 ∧ MatchesMultihash lib b :=
    hcids b (Dict.get?_eq_some.mp (he.stored b hb))
  have hget (b : Bytes × Bytes) (hb : b ∈ blocks) : (putAll dest blocks).get? b.1 = some b.2 :=
    putAll_get? he.nodup dest hb
  obtain ⟨data, hrootmem⟩ := he.mem_of_reach .refl
  have himport := importCar_frames f strict hl hroot (fun b hb => (hstored b hb).1) (fun b hb => (hstored b hb).2)
    dest hcontent hsize
  rwa [checkRoots_present hl hroot (hget _ hrootmem), strictWalk_finished hl he hget] at himport

theorem importCar_exportCar (lib : CarLib) (hl : Faithful lib) (f : FileReads) (faults : StoreFaults)
    (i : ℕ) (exchange : Bytes → Except PyError (Option Bytes)) (fuel : ℕ) (source dest : Store)
    (cidStr : String) (root : lib.Cid) (content : Bytes) (hroot : lib.parseCid cidStr = .ok root)
    (hpresent : AllPresent lib source (lib.cidToBytes root))
    (hcids : ∀ c ∈ source.keys, WellFormedCid c)
    (hmatch : ∀ b ∈ source.entries, MatchesMultihash lib b)
    (hexport : exportCar lib (getBlock faults source i) exchange fuel cidStr = (content, .finished))
    (hsize : content.length ≤ sysMaxsize) :
    let blocks := exportBlocks lib (getBlock faults source i) exchange fuel (lib.cidToBytes root)
    importCar lib f .none false dest content = (blocks, .ok [lib.formatCidForDisplay root]) ∧
      (importCar lib f .none true dest content).1 = blocks ∧
      ((importCar lib f .none true dest content).2 = .ok [lib.formatCidForDisplay root] ↔
        ∀ b ∈ blocks, ∃ cs, blockLinks lib.toDagLib true b.1 b.2 = .ok cs) := by
  intro blocks
  obtain ⟨root', hroot', hwalk, hcontent⟩ := exportCar_finished hexport
  obtain rfl : root = root' := Except.ok.inj (hroot.symm.trans hroot')
  have he : Exports lib source (lib.cidToBytes root) blocks := exportBlocks_exports hpresent hwalk
  have hsource (b : Bytes × Bytes) (hb : b ∈ source.entries) : WellFormedCid b.1 ∧ MatchesMultihash lib b :=
    ⟨hcids b.1 (List.mem_map_of_mem hb), hmatch b hb⟩
  obtain ⟨hputs, hloose⟩ := he.importCar hl hroot hsource f false dest hcontent hsize
  obtain ⟨hputs', hstrict⟩ := he.importCar hl hroot hsource f true dest hcontent hsize
  refine ⟨Prod.ext hputs (hloose.mpr (by simp)), hputs', ?_⟩
  simpa using hstrict

theorem sampleLib_parseCid {s : String} {cid : KnownCid} (h : sampleLib.parseCid s = .ok cid) :
    cid = .rawA ∨ cid = .truncated :=
  List.mem_pair.mp (ofTable_parseCid h).1

theorem sampleLib_faithful : Faithful sampleLib where
  varint_encode := rfl
  varint_decode n rest := by simp [sampleLib, decode_encode]
  header s cid h := by rcases sampleLib_parseCid h with rfl | rfl <;> rfl
  cid_bytes s cid h := by rcases sampleLib_parseCid h with rfl | rfl <;> rfl
  cid_str s cid h := by rcases sampleLib_parseCid h with rfl | rfl <;> rfl
  codec s codec h := ofTable_normaliseCodec h

def storeOf (cid : KnownCid) (data : Bytes) : Store := Dict.empty.set cid.bytes data

theorem storeOf_present {cid : KnownCid} {data : Bytes}
    (h : exportLinks sampleLib cid.bytes data = .ok []) :
    AllPresent sampleLib (storeOf cid data) cid.bytes := by
  intro c hc
  have hroot : c = cid.bytes := by
    induction hc with
    | refl => rfl
    | tail _ hedge ih =>
      obtain ⟨cs, hcs, hd⟩ := hedge
      have hget : (storeOf cid data).get? cid.bytes = some data := by simp [storeOf]
      rw [ih, storeLinks, hget] at hcs
      obtain rfl : [] = cs := Except.ok.inj (h.symm.trans hcs)
      contradiction
  rw [hroot]
  exact List.mem_singleton.mpr rfl

def offline : Bytes → Except PyError (Option Bytes) := fun _ => .ok none

theorem importCar_exportCar_sample : (importCar sampleLib .whole .none true .empty sampleCar).2 =
    .ok [KnownCid.rawA.str] := by
  have hentry : ∀ b ∈ (storeOf .rawA [97]).entries, b = (KnownCid.rawA.bytes, [97]) :=
    fun b hb => List.mem_singleton.mp hb
  refine (importCar_exportCar sampleLib sampleLib_faithful .whole .none 0 offline 2 (storeOf .rawA [97])
    .empty KnownCid.rawA.str .rawA sampleCar rfl (storeOf_present rfl) ?_ ?_ ?_ (by decide)).2.2.mpr ?_
  · intro c hc
    obtain rfl : c = KnownCid.rawA.bytes := List.mem_singleton.mp hc
    exact .v1 0x55 0x12 (sha256A.drop 2)
  · intro b hb
    obtain rfl := hentry b hb
    exact ⟨.rawA, ⟨18, 32, sha256A.drop 2⟩, rfl, rfl, rfl⟩
  · rfl
  · intro b hb
    obtain rfl : b = (KnownCid.rawA.bytes, [97]) := List.mem_singleton.mp hb
    exact ⟨[], rfl⟩

theorem importCar_exportCar_strict_fails : ¬∀ (source : Store) (cid : KnownCid) (content : Bytes),
    sampleLib.parseCid cid.str = .ok cid → AllPresent sampleLib source cid.bytes →
    (∀ c ∈ source.keys, WellFormedCid c) → (∀ b ∈ source.entries, MatchesMultihash sampleLib b) →
    exportCar sampleLib (getBlock .none source 0) offline 2 cid.str = (content, .finished) →
    (importCar sampleLib .whole .none true .empty content).2 = .ok [cid.str] := by
  intro hall
  have hcids : ∀ c ∈ (storeOf .truncated [0x18]).keys, WellFormedCid c := by
    intro c hc
    obtain rfl : c = KnownCid.truncated.bytes := List.mem_singleton.mp hc
    exact .v1 0x71 0x12 (sha256Truncated.drop 2)
  have hmatch : ∀ b ∈ (storeOf .truncated [0x18]).entries, MatchesMultihash sampleLib b := by
    intro b hb
    obtain rfl : b = (KnownCid.truncated.bytes, [0x18]) := List.mem_singleton.mp hb
    exact ⟨.truncated, ⟨18, 32, sha256Truncated.drop 2⟩, rfl, rfl, rfl⟩
  have himport := hall (storeOf .truncated [0x18]) .truncated _ rfl (storeOf_present rfl) hcids hmatch rfl
  exact absurd himport (by decide)

end IpfsLite.Car
