import IpfsLite.CarRoundTrip
import IpfsLite.GcContent

/-!
A DAG that one peer exports and another imports. The archive carries the file that the root stands for,
also where the first peer had part of the DAG from the exchange only, and the second peer exports the
same archive.
-/

namespace IpfsLite

structure ArchiveLib extends CarLib, Files.FileLib

namespace Car

open Worklist Files Gc

section Export

variable {lib : CarLib} {get get' exchange exchange' : Bytes → Except PyError (Option Bytes)} {view : Store}
  {root : Bytes} {fuel : ℕ} {cidStr : String}

/-- What `export_car` comes by, from its store or from the exchange, is what `view` has. -/
def Sees (lib : CarLib) (get exchange : Bytes → Except PyError (Option Bytes)) (view : Store) : Prop :=
  ∀ c data, fetch lib get exchange c = .ok data → view.get? c = some data

theorem fetch_getBlock {c data : Bytes} (h : view.get? c = some data) :
    fetch lib (getBlock .none view 0) exchange c = .ok data := by
  simp [fetch, getBlock, StoreFaults.none, h, bind, Except.bind]

theorem exportWalk_congr (h : ∀ c ∈ (exportWalk lib get exchange fuel root).1,
      fetch lib get' exchange' c = fetch lib get exchange c) :
    exportWalk lib get' exchange' fuel root = exportWalk lib get exchange fuel root := by
  apply run_congr
  intro c hc
  rw [exportVisit, exportVisit, h c hc]

theorem exportBlocks_congr (h : ∀ c ∈ (exportWalk lib get exchange fuel root).1,
      fetch lib get' exchange' c = fetch lib get exchange c) :
    exportBlocks lib get' exchange' fuel root = exportBlocks lib get exchange fuel root := by
  rw [exportBlocks, exportBlocks, exportWalk_congr h]
  exact List.filterMap_congr fun c hc => by rw [h c hc]

theorem fetched_of_finished (h : (exportWalk lib get exchange fuel root).2 = .finished) {c : Bytes}
    (hc : c ∈ (exportWalk lib get exchange fuel root).1) :
    ∃ data cs, fetch lib get exchange c = .ok data ∧ exportLinks lib c data = .ok cs := by
  obtain ⟨cs, hcs⟩ := run_finished h c hc
  obtain ⟨data, hdata, hlinks⟩ := bind_ok.mp hcs
  exact ⟨data, cs, hdata, hlinks⟩

theorem Sees.fetch_eq (hsees : Sees lib get exchange view)
    (h : (exportWalk lib get exchange fuel root).2 = .finished) {c : Bytes}
    (hc : c ∈ (exportWalk lib get exchange fuel root).1) :
    fetch lib (getBlock .none view 0) exchange' c = fetch lib get exchange c := by
  obtain ⟨data, -, hdata, -⟩ := fetched_of_finished h hc
  rw [hdata, fetch_getBlock (hsees c data hdata)]

theorem Sees.allPresent (hsees : Sees lib get exchange view)
    (h : (exportWalk lib get exchange fuel root).2 = .finished) : AllPresent lib view root := by
  have hends := run_ends (exportVisit lib get exchange) root fuel
  intro c hc
  have hvisited : Reach (exportVisit lib get exchange) root c := by
    induction hc with
    | refl => exact .refl
    | @tail m d _ hedge ih =>
      obtain ⟨cs, hcs, hd⟩ := hedge
      obtain ⟨data, -, hdata, -⟩ := fetched_of_finished h (hends.complete h m ih)
      rw [storeLinks, hsees m data hdata] at hcs
      exact ih.tail ⟨cs, bind_ok.mpr ⟨data, hdata, hcs⟩, hd⟩
  obtain ⟨data, -, hdata, -⟩ := fetched_of_finished h (hends.complete h c hvisited)
  exact Dict.mem_keys.mpr ⟨data, hsees c data hdata⟩

theorem Sees.exports (hsees : Sees lib get exchange view)
    (h : (exportWalk lib get exchange fuel root).2 = .finished) :
    Exports lib view root (exportBlocks lib get exchange fuel root) := by
  have hsame (c : Bytes) (hc : c ∈ (exportWalk lib get exchange fuel root).1) :
      fetch lib (getBlock .none view 0) exchange c = fetch lib get exchange c := hsees.fetch_eq h hc
  rw [← exportBlocks_congr hsame]
  apply exportBlocks_exports (hsees.allPresent h)
  rw [exportWalk_congr hsame]
  exact h

theorem exportCar_again {archive : Bytes} {rootCid : lib.Cid} (hroot : lib.parseCid cidStr = .ok rootCid)
    (h : exportCar lib get exchange fuel cidStr = (archive, .finished)) {dest : Store}
    (hdest : ∀ b ∈ exportBlocks lib get exchange fuel (lib.cidToBytes rootCid), dest.get? b.1 = some b.2) :
    exportCar lib (getBlock .none dest 0) exchange' fuel cidStr = (archive, .finished) := by
  obtain ⟨rootCid', hroot', hwalk, -⟩ := exportCar_finished h
  obtain rfl : rootCid = rootCid' := Except.ok.inj (hroot.symm.trans hroot')
  have hsame (c : Bytes) (hc : c ∈ (exportWalk lib get exchange fuel (lib.cidToBytes rootCid)).1) :
      fetch lib (getBlock .none dest 0) exchange' c = fetch lib get exchange c := by
    obtain ⟨data, -, hdata, -⟩ := fetched_of_finished hwalk hc
    have hblock : (c, data) ∈ exportBlocks lib get exchange fuel (lib.cidToBytes rootCid) :=
      List.mem_filterMap.mpr ⟨c, hc, by simp [hdata, Except.toOption]⟩
    rw [hdata, fetch_getBlock (hdest _ hblock)]
  unfold exportCar at h ⊢
  simp only [hroot] at h ⊢
  rw [exportWalk_congr hsame, exportBlocks_congr hsame]
  exact h

end Export

section Import

variable {lib : ArchiveLib} {view dest : Store} {root : Bytes} {blocks : List (Bytes × Bytes)}

theorem Exports.complete (hcodec : ∀ s codec, lib.normaliseCodec s = .ok codec →
      (codec.isDagPb = true ↔ codec.str = "dag-pb"))
    (he : Exports lib.toCarLib view root blocks) (hdest : ∀ b ∈ blocks, dest.get? b.1 = some b.2)
    (hm : ∀ b ∈ blocks, MatchesMultihash lib.toCarLib b) : Complete lib.toDagLib dest root := by
  have hlinks (b : Bytes × Bytes) (hb : b ∈ blocks) : dagLinks lib.toDagLib dest b.1 =
      storeLinks lib.toCarLib view b.1 := by
    simp only [dagLinks, storeLinks, hdest b hb, he.stored b hb, blockOrMissing]
    exact (exportLinks_eq hcodec b.1 b.2).symm
  have hblock (c : Bytes) (hc : InDag lib.toDagLib dest root c) : ∃ b ∈ blocks, b.1 = c := by
    have hreach : Reach (storeLinks lib.toCarLib view) root c := by
      induction hc with
      | refl => exact .refl
      | @tail m d _ hedge ih =>
        obtain ⟨cs, hcs, hd⟩ := hedge
        obtain ⟨data, hb⟩ := he.mem_of_reach ih
        exact ih.tail ⟨cs, (hlinks _ hb).symm.trans hcs, hd⟩
    obtain ⟨data, hb⟩ := he.mem_of_reach hreach
    exact ⟨_, hb, rfl⟩
  refine ⟨fun c hc => ?_, fun c hc => ?_, fun c hc => ?_⟩
  · obtain ⟨b, hb, rfl⟩ := hblock c hc
    exact Dict.mem_keys.mpr ⟨b.2, hdest b hb⟩
  · obtain ⟨b, hb, rfl⟩ := hblock c hc
    obtain ⟨cid, -, hcid, -, -⟩ := hm b hb
    exact ⟨lib.formatCidForDisplay cid, by simp [display, hcid, Except.map]⟩
  · obtain ⟨b, hb, rfl⟩ := hblock c hc
    obtain ⟨cs, hcs⟩ := he.links b hb
    refine ⟨cs, ?_⟩
    rw [hlinks b hb, storeLinks, he.stored b hb]
    exact hcs

theorem Exports.sameBelow (hcodec : ∀ s codec, lib.normaliseCodec s = .ok codec →
      (codec.isDagPb = true ↔ codec.str = "dag-pb"))
    (hpb : ∀ codec, lib.normaliseCodec "dag-pb" = .ok codec → codec.isDagPb = true)
    (he : Exports lib.toCarLib view root blocks) (hdest : ∀ b ∈ blocks, dest.get? b.1 = some b.2) :
    SameBelow lib.toFileLib view dest root := by
  intro d hd
  have hreach : Reach (storeLinks lib.toCarLib view) root d := by
    induction hd with
    | refl => exact .refl
    | @tail m d _ hlink ih =>
      obtain ⟨data, hb⟩ := he.mem_of_reach ih
      obtain ⟨cs, hcs⟩ := he.links _ hb
      refine ih.tail ⟨cs, ?_, ?_⟩
      · rw [storeLinks, he.stored _ hb]
        exact hcs
      · rw [exportLinks_eq hcodec] at hcs
        exact hlink.mem_blockLinks hpb (he.stored _ hb) hcs
  obtain ⟨data, hb⟩ := he.mem_of_reach hreach
  exact (hdest _ hb).trans (he.stored _ hb).symm

end Import

def archiveLib : ArchiveLib where
  toCarLib := { sampleLib with
    toDagLib := .ofTable [.rawA, .twiceA]
      [(KnownCid.twiceAData, ⟨[some KnownCid.rawA.bytes, some KnownCid.rawA.bytes], .bytes []⟩)] []
      [(dumpHeader (carHeader KnownCid.rawA.bytes), carHeader KnownCid.rawA.bytes),
        (dumpHeader (carHeader KnownCid.twiceA.bytes), carHeader KnownCid.twiceA.bytes)]
    multihashDigest := fun data code length =>
      if code = 18 ∧ length = 32 then
        decodeTable .valueError [([97], sha256A.drop 2), (KnownCid.twiceAData, sha256TwiceA.drop 2)] data
      else .error ⟨.valueError, "Unsupported hash code"⟩ }
  isDirectoryNode _ := .ok false
  unixfsData
    | .bytes b => b
    | _ => []

theorem archiveLib_faithful : Faithful archiveLib.toCarLib := by
  have hparse {s : String} {cid : KnownCid} (h : archiveLib.parseCid s = .ok cid) :
      cid = .rawA ∨ cid = .twiceA := List.mem_pair.mp (ofTable_parseCid h).1
  refine ⟨rfl, fun n rest => ?_, fun s cid h => ?_, fun s cid h => ?_, fun s cid h => ?_, fun s codec h => ?_⟩
  · simp [archiveLib, sampleLib, Leb128.decode_encode]
  · rcases hparse h with rfl | rfl <;> rfl
  · rcases hparse h with rfl | rfl <;> rfl
  · rcases hparse h with rfl | rfl <;> rfl
  · exact ofTable_normaliseCodec h

/-- The leaf is not in the store of the exporter, and the exchange sends it. -/
def leafSent (cid : Bytes) : Except PyError (Option Bytes) :=
  .ok (if cid = KnownCid.rawA.bytes then some [97] else none)

def twiceAView : Store := (Dict.empty.set KnownCid.rawA.bytes [97]).set KnownCid.twiceA.bytes KnownCid.twiceAData

def twiceACar : Bytes :=
  (exportCar archiveLib.toCarLib (getBlock .none (storeOf .twiceA KnownCid.twiceAData) 0) leafSent 3
    KnownCid.twiceA.str).1

end Car

end IpfsLite
