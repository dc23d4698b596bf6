import IpfsLite.CarRoundTrip

namespace IpfsLite.Car

open Leb128

inductive SectionsEnd
  | endOfFile
  | emptySection
  | raised (e : PyError)

section Reading

variable (lib : CarLib) (f : FileReads)

/-- One round of the read loop of `import_car`, up to what it does with the section. -/
def readSection (rest : Bytes) : Except SectionsEnd ((Bytes × Bytes) × Bytes) :=
  match readVarint rest with
  | .error e => .error (if e.type = .typeError then .endOfFile else .raised e)
  | .ok (blockLen, rest) =>
    match readExactly f blockLen rest with
    | .error e => .error (.raised e)
    | .ok (blockDataFull, rest) =>
      if blockDataFull = [] then .error .emptySection
      else
        match getCidLen lib blockDataFull with
        | .error e => .error (.raised e)
        | .ok cidLen => .ok ((blockDataFull.take cidLen, blockDataFull.drop cidLen), rest)

def readSections : ℕ → Bytes → Option (List (Bytes × Bytes) × SectionsEnd)
  | 0, _ => none
  | k + 1, rest =>
    match readSection lib f rest with
    | .error ended => some ([], ended)
    | .ok (block, rest) => (readSections k rest).map fun r => (block :: r.1, r.2)

end Reading

def SectionsEnd.result : SectionsEnd → Except PyError Unit
  | .endOfFile | .emptySection => .ok ()
  | .raised e => .error e

variable {lib : CarLib} {f : FileReads}

theorem readBlocks_succ (k : ℕ) (rest : Bytes) (puts : List (Bytes × Bytes)) :
    readBlocks lib f .none (k + 1) rest puts = match readSection lib f rest with
      | .error ended => (puts, ended.result)
      | .ok (block, rest) =>
        match verifyBlock lib block.1 block.2 with
        | .error e => (puts, .error e)
        | .ok () => readBlocks lib f .none k rest (puts ++ [block]) := by
  rw [readBlocks, readSection]
  cases readVarint rest with
  | error e =>
    dsimp only
    split_ifs <;> rfl
  | ok r =>
    dsimp only
    cases readExactly f r.1 r.2 with
    | error e => rfl
    | ok r =>
      dsimp only
      split_ifs with hempty
      · rfl
      · unfold readBlock
        cases getCidLen lib r.1 with
        | error e => rfl
        | ok n =>
          simp only [bind, Except.bind]
          cases verifyBlock lib (r.1.take n) (r.1.drop n) <;> rfl

theorem readBlocks_sections {k : ℕ} {rest : Bytes} {sections : List (Bytes × Bytes)} {ended : SectionsEnd}
    (h : readSections lib f k rest = some (sections, ended)) (hm : ∀ b ∈ sections, MatchesMultihash lib b)
    (puts : List (Bytes × Bytes)) :
    readBlocks lib f .none k rest puts = (puts ++ sections, ended.result) := by
  induction k generalizing rest sections puts with
  | zero => contradiction
  | succ k ih =>
    unfold readSections at h
    rw [readBlocks_succ]
    cases hsection : readSection lib f rest with
    | error e =>
      rw [hsection] at h
      obtain ⟨rfl, rfl⟩ := Prod.mk.inj (Option.some.inj h)
      rw [List.append_nil]
    | ok r =>
      rw [hsection] at h
      obtain ⟨tail, htail, he⟩ := Option.map_eq_some_iff.mp h
      obtain ⟨rfl, rfl⟩ := Prod.mk.inj he
      have hverify := verifyBlock_ok.mpr (hm r.1 List.mem_cons_self)
      have hrest := ih htail (fun b hb => hm b (List.mem_cons_of_mem _ hb)) (puts ++ [r.1])
      dsimp only
      rw [hverify]
      dsimp only
      rw [hrest, List.append_assoc, List.singleton_append]

theorem readSection_frame (hv : ∀ n rest, lib.varintDecode (encode n ++ rest) = .ok (n, rest))
    {b : Bytes × Bytes} (hc : WellFormedCid b.1) (hsize : (body b).length ≤ sysMaxsize) (rest : Bytes) :
    readSection lib f (frame (body b) ++ rest) = .ok (b, rest) := by
  have hexactly : readExactly f (body b).length (body b ++ rest) = .ok (body b, rest) :=
    readExactly_ok.mpr ⟨hsize, rfl, rfl⟩
  have hne : body b ≠ [] := List.append_ne_nil_of_left_ne_nil hc.ne_nil _
  have hcid : b.1.length ≤ sysMaxsize := by
    rw [body, List.length_append] at hsize
    omega
  have hlen : getCidLen lib (body b) = .ok b.1.length := getCidLen_cid hv hc b.2 hcid
  rw [frame, List.append_assoc, readSection, readVarint_encode]
  dsimp only
  rw [hexactly]
  dsimp only
  rw [if_neg hne, hlen]
  simp [body]

theorem readSections_framed (hv : ∀ n rest, lib.varintDecode (encode n ++ rest) = .ok (n, rest))
    {blocks : List (Bytes × Bytes)} (hc : ∀ b ∈ blocks, WellFormedCid b.1)
    (hsize : ∀ b ∈ blocks, (body b).length ≤ sysMaxsize) {k : ℕ}
    (hk : (blocks.flatMap fun b => frame (body b)).length < k) :
    readSections lib f k (blocks.flatMap fun b => frame (body b)) = some (blocks, .endOfFile) := by
  induction blocks generalizing k with
  | nil =>
    obtain ⟨k, rfl⟩ : ∃ m, k = m + 1 := ⟨k - 1, by omega⟩
    rfl
  | cons b blocks ih =>
    rw [List.flatMap_cons] at hk ⊢
    rw [List.length_append] at hk
    have hpos : 0 < (frame (body b)).length := by
      apply List.length_pos_of_ne_nil
      exact List.append_ne_nil_of_left_ne_nil (encode_encodes _).ne_nil _
    obtain ⟨k, rfl⟩ : ∃ m, k = m + 1 := ⟨k - 1, by omega⟩
    have hsection := readSection_frame (f := f) hv (hc b List.mem_cons_self) (hsize b List.mem_cons_self)
      (blocks.flatMap fun b => frame (body b))
    have hrest := ih (fun b hb => hc b (List.mem_cons_of_mem _ hb))
      (fun b hb => hsize b (List.mem_cons_of_mem _ hb)) (k := k) (by omega)
    rw [readSections, hsection]
    dsimp only
    rw [hrest]
    rfl

/-- A section is a `bytes` object, so it is no longer than `sys.maxsize`. -/
theorem readSections_frames (lib : CarLib) (hv : ∀ n rest, lib.varintDecode (encode n ++ rest) = .ok (n, rest))
    (f : FileReads) (blocks : List (Bytes × Bytes)) (hc : ∀ b ∈ blocks, WellFormedCid b.1)
    (hsize : ∀ b ∈ blocks, (body b).length ≤ sysMaxsize) (k : ℕ)
    (hk : (blocks.flatMap fun b => frame (body b)).length < k) :
    readSections lib f k (blocks.flatMap fun b => frame (body b)) = some (blocks, .endOfFile) ∧
      ((∀ b ∈ blocks, MatchesMultihash lib b) →
        readBlocks lib f .none k (blocks.flatMap fun b => frame (body b)) [] = (blocks, .ok ())) := by
  have hsections := readSections_framed (f := f) hv hc hsize hk
  exact ⟨hsections, fun hm => readBlocks_sections hsections hm []⟩

def oneByOne : FileReads where
  size _ asked := min 1 asked
  size_pos _ _ _ ha := by omega
  size_le _ _ := by omega

def v0Cid : Bytes := 0x12 :: 0x20 :: List.replicate 32 7

theorem readSections_frames_sample :
    let file := 34 :: v0Cid ++ 37 :: KnownCid.rawA.bytes ++ [97]
    let blocks := [(v0Cid, []), (KnownCid.rawA.bytes, [97])]
    readSections sampleLib oneByOne 100 file = some (blocks, .endOfFile) ∧
      ((∀ b ∈ blocks, MatchesMultihash sampleLib b) →
        readBlocks sampleLib oneByOne .none 100 file [] = (blocks, .ok ())) := by
  refine readSections_frames sampleLib sampleLib_faithful.varint_decode oneByOne
    [(v0Cid, []), (KnownCid.rawA.bytes, [97])] ?_ (by decide) 100 (by decide)
  intro b hb
  rcases List.mem_pair.mp hb with rfl | rfl
  · exact .v0 _ rfl
  · exact .v1 0x55 0x12 (sha256A.drop 2)

end IpfsLite.Car
