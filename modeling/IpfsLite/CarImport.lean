import IpfsLite.CarReading

namespace IpfsLite.Car

open Leb128

def MatchesMultihash (lib : CarLib) (block : Bytes × Bytes) : Prop :=
  ∃ cid mh, lib.parseCidBytes block.1 = .ok cid ∧ lib.multihashDecode (lib.multihash cid) = .ok mh ∧
    lib.multihashDigest block.2 mh.code mh.length = .ok mh.digest

def body (block : Bytes × Bytes) : Bytes := block.1 ++ block.2

structure IsSection (lib : CarLib) (block : Bytes × Bytes) : Prop where
  ne_nil : body block ≠ []
  matchesMultihash : MatchesMultihash lib block

def IsHeader (lib : CarLib) (headerBytes : Bytes) : Prop :=
  ∃ header version, lib.cborLoads headerBytes = .ok header ∧
    header.get lib.toPyLib "version" = .ok version ∧ isVersionOne version

def IsCar (lib : CarLib) (bytes : Bytes) (blocks : List (Bytes × Bytes)) : Prop :=
  ∃ p headerBytes rest, bytes = p ++ (headerBytes ++ rest) ∧ Encodes p headerBytes.length ∧
    IsHeader lib headerBytes ∧ Framed rest (blocks.map body) ∧ ∀ b ∈ blocks, IsSection lib b

def EmptySection (bytes : Bytes) : Prop :=
  ∃ p headerBytes w bodies z rest, bytes = p ++ (headerBytes ++ (w ++ (z ++ rest))) ∧
    Encodes p headerBytes.length ∧ Framed w bodies ∧ Encodes z 0

theorem IsCar.no_emptySection {lib : CarLib} {bytes : Bytes} {blocks : List (Bytes × Bytes)}
    (h : IsCar lib bytes blocks) : ¬EmptySection bytes := by
  obtain ⟨p, headerBytes, rest, rfl, hp, -, hframed, hsections⟩ := h
  rintro ⟨q, headerBytes', w, bodies, z, r, he, hq, hw, hz⟩
  obtain ⟨-, -, hrest⟩ := hp.split_body hq he
  refine hframed.no_empty hw ?_ hz hrest
  intro b hb
  obtain ⟨block, hblock, rfl⟩ := List.mem_map.mp hb
  exact (hsections block hblock).ne_nil

variable {lib : CarLib} {f : FileReads} {faults : StoreFaults} {strict : Bool}

theorem verifyBlock_ok {cid data : Bytes} :
    verifyBlock lib cid data = .ok () ↔ MatchesMultihash lib (cid, data) := by
  unfold verifyBlock MatchesMultihash
  constructor
  · intro h
    obtain ⟨c, hc, h⟩ := bind_ok.mp h
    obtain ⟨mh, hmh, h⟩ := bind_ok.mp h
    split at h
    · contradiction
    · rename_i digest hd
      split_ifs at h with he
      exact ⟨c, mh, hc, hmh, he ▸ hd⟩
  · rintro ⟨c, mh, hc, hmh, hd⟩
    refine bind_ok.mpr ⟨c, hc, bind_ok.mpr ⟨mh, hmh, ?_⟩⟩
    simp [hd]

theorem readBlock_ok {full : Bytes} {block : Bytes × Bytes} :
    readBlock lib full = .ok block ↔ ∃ n, getCidLen lib full = .ok n ∧
      block = (full.take n, full.drop n) ∧ MatchesMultihash lib block := by
  unfold readBlock
  constructor
  · intro h
    obtain ⟨n, hn, h⟩ := bind_ok.mp h
    obtain ⟨_, hv, h⟩ := bind_ok.mp h
    obtain rfl := Except.ok.inj h
    exact ⟨n, hn, rfl, verifyBlock_ok.mp hv⟩
  · rintro ⟨n, hn, rfl, hm⟩
    exact bind_ok.mpr ⟨n, hn, bind_ok.mpr ⟨(), verifyBlock_ok.mpr hm, rfl⟩⟩

theorem readBlocks_ok {k : ℕ} {rest : Bytes} {puts puts' : List (Bytes × Bytes)}
    (hk : rest.length ≤ k) (h : readBlocks lib f faults k rest puts = (puts', .ok ())) :
    ∃ blocks w tail, puts' = puts ++ blocks ∧ rest = w ++ tail ∧ Framed w (blocks.map body) ∧
      (∀ b ∈ blocks, IsSection lib b) ∧ (tail = [] ∨ ∃ z r, tail = z ++ r ∧ Encodes z 0) := by
  induction k generalizing rest puts with
  | zero =>
    obtain rfl : rest = [] := List.length_eq_zero_iff.mp (by omega)
    obtain rfl : puts = puts' := (Prod.mk.inj h).1
    exact ⟨[], [], [], by simp, rfl, .nil, by simp, .inl rfl⟩
  | succ k ih =>
    simp only [readBlocks] at h
    split at h
    · rename_i e he
      split_ifs at h with ht
      · obtain rfl : puts = puts' := (Prod.mk.inj h).1
        exact ⟨[], [], rest, by simp, rfl, .nil, by simp, .inl (readVarint_eof he ht)⟩
      · simp at h
    · rename_i n rest' hn
      obtain ⟨p, rfl, hp⟩ := readVarint_ok.mp hn
      split at h
      · simp at h
      · rename_i full rest' hfull
        obtain ⟨-, hlen, rfl⟩ := readExactly_ok.mp hfull
        split_ifs at h with hempty
        · obtain rfl : puts = puts' := (Prod.mk.inj h).1
          have hz : Encodes p 0 := by rwa [← hlen, hempty] at hp
          exact ⟨[], [], _, by simp, rfl, .nil, by simp, .inr ⟨p, _, rfl, hz⟩⟩
        · split at h
          · simp at h
          · rename_i block hblock
            split at h
            · simp at h
            · have hpos : 0 < p.length := List.length_pos_of_ne_nil hp.ne_nil
              obtain ⟨blocks, w, tail, hputs, rfl, hw, hs, ht⟩ :=
                ih (by simp only [List.length_append] at hk; omega) h
              obtain ⟨m, -, rfl, hm⟩ := readBlock_ok.mp hblock
              have hbody : body (full.take m, full.drop m) = full := List.take_append_drop m full
              refine ⟨(full.take m, full.drop m) :: blocks, p ++ (full ++ w), tail, by simp [hputs],
                by simp, ?_, ?_, ht⟩
              · rw [List.map_cons, hbody]
                exact .cons (by rwa [hlen]) hw
              · intro b hb
                rcases List.mem_cons.mp hb with rfl | hb
                · exact ⟨by rwa [hbody], hm⟩
                · exact hs b hb

theorem headerRoots_version {header : PyValue} {roots : List String}
    (h : headerRoots lib header = .ok roots) :
    ∃ version, header.get lib.toPyLib "version" = .ok version ∧ isVersionOne version := by
  unfold headerRoots at h
  obtain ⟨version, hv, h⟩ := bind_ok.mp h
  split_ifs at h with hone
  exact ⟨version, hv, hone⟩

theorem readHeader_ok {n : ℕ} {bytes rest : Bytes} {roots : List String}
    (h : readHeader lib f n bytes = .ok (roots, rest)) : ∃ headerBytes header,
      bytes = headerBytes ++ rest ∧ headerBytes.length = n ∧ lib.cborLoads headerBytes = .ok header ∧
      headerRoots lib header = .ok roots := by
  unfold readHeader at h
  obtain ⟨⟨headerBytes, rest'⟩, hread, h⟩ := bind_ok.mp h
  obtain ⟨header, hheader, h⟩ := bind_ok.mp h
  obtain ⟨roots', hroots, h⟩ := bind_ok.mp h
  obtain ⟨rfl, rfl⟩ : roots' = roots ∧ rest' = rest := by simpa using h
  obtain ⟨-, hlen, hbytes⟩ := readExactly_ok.mp hread
  exact ⟨headerBytes, header, hbytes, hlen, hheader, hroots⟩

theorem importCar_ok {store : Store} {bytes : Bytes} {puts : List (Bytes × Bytes)} {roots : List String}
    (hb : bytes ≠ []) (h : importCar lib f faults strict store bytes = (puts, .ok roots)) :
    ∃ p headerBytes header rest, bytes = p ++ (headerBytes ++ rest) ∧ Encodes p headerBytes.length ∧
      lib.cborLoads headerBytes = .ok header ∧ headerRoots lib header = .ok roots ∧
      readBlocks lib f faults rest.length rest [] = (puts, .ok ()) ∧
      checkRoots lib faults strict (putAll store puts) 0 roots = .ok () := by
  unfold importCar at h
  split at h
  · rename_i e he
    split_ifs at h with ht
    · exact absurd (readVarint_eof he ht) hb
    · simp at h
  · rename_i n rest hn
    obtain ⟨p, rfl, hp⟩ := readVarint_ok.mp hn
    split at h
    · simp at h
    · rename_i roots' rest' hheader
      obtain ⟨headerBytes, header, rfl, rfl, hloads, hroots⟩ := readHeader_ok hheader
      cases hread : readBlocks lib f faults rest'.length rest' [] with
      | mk puts' ended =>
        simp only [hread] at h
        cases ended with
        | error e => simp at h
        | ok u =>
          simp only at h
          split at h
          · simp at h
          · rename_i hcheck
            obtain ⟨rfl, rfl⟩ : puts' = puts ∧ roots' = roots := by simpa using h
            exact ⟨p, headerBytes, header, rest', rfl, hp, hloads, hroots, hread, hcheck⟩

theorem importCar_whole_iff (lib : CarLib) (f : FileReads) (faults : StoreFaults) (strict : Bool)
    (store : Store) (bytes : Bytes) (puts : List (Bytes × Bytes)) (roots : List String) (hb : bytes ≠ [])
    (h : importCar lib f faults strict store bytes = (puts, .ok roots)) :
    IsCar lib bytes puts ↔ ¬EmptySection bytes := by
  refine ⟨IsCar.no_emptySection, fun hne => ?_⟩
  obtain ⟨p, headerBytes, header, rest, rfl, hp, hloads, hroots, hread, -⟩ := importCar_ok hb h
  obtain ⟨blocks, w, tail, hputs, rfl, hw, hs, ht⟩ := readBlocks_ok le_rfl hread
  obtain rfl : puts = blocks := by simpa using hputs
  obtain ⟨version, hversion, hone⟩ := headerRoots_version hroots
  rcases ht with rfl | ⟨z, r, rfl, hz⟩
  · rw [List.append_nil]
    exact ⟨p, headerBytes, w, rfl, hp, ⟨header, version, hloads, hversion, hone⟩, hw, hs⟩
  · exact absurd ⟨p, headerBytes, w, puts.map body, z, r, rfl, hp, hw, hz⟩ hne

def versionEntry : Bytes := [0x67, 118, 101, 114, 115, 105, 111, 110, 1]

def rootsKey : Bytes := [0x65, 114, 111, 111, 116, 115]

def dumpHeader : PyValue → Bytes
  | .dict [_, (_, .list [.cborTag _ (.bytes b)])] =>
    [0xA2] ++ versionEntry ++ rootsKey ++ [0x81, 0xD8, 0x2A, 0x58, .ofNat b.length] ++ b
  | _ => []

def noRoots : PyValue := .dict [(.str "version", .int 1), (.str "roots", .list [])]

def noRootsBytes : Bytes := [0xA2] ++ versionEntry ++ rootsKey ++ [0x80]

def sampleLib : CarLib where
  toDagLib := .ofTable [.rawA, .truncated] [] []
    [(dumpHeader (carHeader KnownCid.rawA.bytes), carHeader KnownCid.rawA.bytes),
      (dumpHeader (carHeader KnownCid.truncated.bytes), carHeader KnownCid.truncated.bytes),
      (noRootsBytes, noRoots)]
  toPyLib := .builtins
  varintEncode := encode
  varintDecode data :=
    match decode data with
    | some r => .ok r
    | none => .error ⟨.typeError, "ord() expected a character"⟩
  cborDumps := dumpHeader
  multihashDecode
    | 18 :: 32 :: digest =>
      if digest.length = 32 then .ok ⟨18, 32, digest⟩ else .error ⟨.valueError, "Inconsistent length"⟩
    | _ => .error ⟨.valueError, "Unsupported hash code"⟩
  multihashDigest data code length :=
    if code = 18 ∧ length = 32 then
      decodeTable .valueError [([97], sha256A.drop 2), ([0x18], sha256Truncated.drop 2)] data
    else .error ⟨.valueError, "Unsupported hash code"⟩
  cidStr cid := cid.str

def sampleCar : Bytes :=
  headerFrame sampleLib KnownCid.rawA.bytes ++ sectionFrame sampleLib (KnownCid.rawA.bytes, [97])

theorem importCar_whole_sample : IsCar sampleLib sampleCar [(KnownCid.rawA.bytes, [97])] ↔
    ¬EmptySection sampleCar :=
  importCar_whole_iff sampleLib .whole .none true .empty sampleCar _ [KnownCid.rawA.str] (by decide)
    (by decide)

def unreadTail : Bytes := frame noRootsBytes ++ [0, 0xFF]

theorem importCar_whole_fails : ¬∀ bytes puts roots, bytes ≠ [] →
    importCar sampleLib .whole .none true .empty bytes = (puts, .ok roots) →
    IsCar sampleLib bytes puts := by
  intro hall
  have hcar := hall unreadTail [] [] (by decide) (by decide)
  apply hcar.no_emptySection
  exact ⟨encode noRootsBytes.length, noRootsBytes, [], [], [0], [0xFF], by decide, encode_encodes _,
    .nil, .last (by decide)⟩

end IpfsLite.Car
