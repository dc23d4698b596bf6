import IpfsLite.CarRoundTrip
import IpfsLite.GcMarking

/-! `export_car` and `gc` see the same DAG: what an export reads is what a run of `gc` keeps. -/

namespace IpfsLite.Car

open Worklist

variable {lib : CarLib} {store : Store} {exchange : Bytes → Except PyError (Option Bytes)} {root : Bytes}

def stored (store : Store) (cid : Bytes) : Except PyError (Option Bytes) := .ok (store.get? cid)

def walked (lib : CarLib) (store : Store) (root : Bytes) : List Bytes × Outcome PyError :=
  walkDag lib.toDagLib store (stored store) true false root

def asksExchange (getBlock : Bytes → Except PyError (Option Bytes)) (cid : Bytes) : Bool :=
  match getBlock cid with
  | .ok none => true
  | _ => false

theorem fetch_stored (lib : CarLib) (exchange : Bytes → Except PyError (Option Bytes)) {c : Bytes}
    (hc : c ∈ store.keys) : ∃ data, fetch lib (stored store) exchange c = .ok data := by
  obtain ⟨data, hdata⟩ := Dict.mem_keys.mp hc
  exact ⟨data, by simp [fetch, stored, hdata, bind, Except.bind]⟩

theorem exportVisit_stored (hcodec : ∀ s codec, lib.normaliseCodec s = .ok codec →
    (codec.isDagPb = true ↔ codec.str = "dag-pb")) {c : Bytes} (hc : c ∈ store.keys) :
    exportVisit lib (stored store) exchange c = expand lib.toDagLib (stored store) true false c := by
  obtain ⟨data, hdata⟩ := Dict.mem_keys.mp hc
  have hfetch : fetch lib (stored store) exchange c = .ok data := by
    simp [fetch, stored, hdata, bind, Except.bind]
  simp only [exportVisit, hfetch, expand, if_true, stored, hdata, Except.bind, blockOrMissing]
  exact exportLinks_eq hcodec c data

theorem walked_reach (hcodec : ∀ s codec, lib.normaliseCodec s = .ok codec →
    (codec.isDagPb = true ↔ codec.str = "dag-pb")) {c : Bytes}
    (h : Reach (expand lib.toDagLib (stored store) true false) root c) :
    Reach (storeLinks lib store) root c := by
  induction h with
  | refl => exact .refl
  | @tail m d _ hedge ih =>
    obtain ⟨cs, hcs, hd⟩ := hedge
    refine ih.tail ⟨cs, ?_, hd⟩
    rw [storeLinks]
    cases hm : store.get? m with
    | none => simpa [expand, stored, hm, Except.bind, blockOrMissing] using hcs
    | some data =>
      simp only
      rw [exportLinks_eq hcodec]
      simpa [expand, stored, hm, Except.bind, blockOrMissing] using hcs

theorem walked_keys (hcodec : ∀ s codec, lib.normaliseCodec s = .ok codec →
    (codec.isDagPb = true ↔ codec.str = "dag-pb")) (hp : AllPresent lib store root) {c : Bytes}
    (h : c ∈ (walked lib store root).1) : c ∈ store.keys := by
  apply hp
  apply walked_reach hcodec
  exact (run_ends (expand lib.toDagLib (stored store) true false) root _).sound c h

theorem exportWalk_eq (hcodec : ∀ s codec, lib.normaliseCodec s = .ok codec →
    (codec.isDagPb = true ↔ codec.str = "dag-pb")) (hp : AllPresent lib store root) {fuel : ℕ}
    (hfuel : walkBound lib.toDagLib false store ≤ fuel) :
    exportWalk lib (stored store) exchange fuel root = walked lib store root := by
  have hfed : (walked lib store root).2 ≠ .starved :=
    walkDag_fed (fun c data h => Except.ok.inj h) root
  have hsame : exportWalk lib (stored store) exchange (walkBound lib.toDagLib false store) root =
      walked lib store root := by
    apply run_congr
    intro c hc
    exact exportVisit_stored hcodec (walked_keys hcodec hp hc)
  have hexport : (exportWalk lib (stored store) exchange (walkBound lib.toDagLib false store) root).2 ≠
      .starved := by
    rw [hsame]
    exact hfed
  rw [← hsame]
  exact run_more hexport hfuel

end IpfsLite.Car

namespace IpfsLite.Gc

open Worklist

variable {lib : DagLib} {store : Store} {pins : PinMap} {reads : Reads}

theorem gc_keeps_walk (hround : RoundTrips lib store) {pinStr : String} {root : Bytes}
    (hpin : pins.get? pinStr = some (.ofType "recursive")) (hroot : pinRoot lib pinStr = .ok root)
    (hstored : ∀ c ∈ (run (fun c => blockOrMissing lib false c (store.get? c)) (walkBound lib false store)
      (.start root)).1, c ∈ store.keys) :
    ∀ c ∈ (run (fun c => blockOrMissing lib false c (store.get? c)) (walkBound lib false store)
      (.start root)).1, c ∈ (gc lib store pins healthy).1.keys := by
  intro c hc
  have hc' := hstored c hc
  obtain ⟨s, hs, -⟩ := hround c hc'
  rw [mem_gc hround hs]
  refine ⟨hc', ?_⟩
  have hwalk : markWalk lib store healthy (pinStr, .ofType "recursive") root =
      (run (fun c => blockOrMissing lib false c (store.get? c)) (walkBound lib false store)
        (.start root)).1 := by
    rw [markWalk, markVisit_recursive (by simp [PinValue.isType_iff])]
    apply congrArg Prod.fst
    apply run_congr
    intro d hd
    obtain ⟨t, ht, -⟩ := hround d (hstored d hd)
    simp [walkVisit, ht, Except.bind]
  rw [reachableCids, List.mem_dedup, List.mem_flatMap]
  refine ⟨(pinStr, .ofType "recursive"), Dict.get?_eq_some.mp hpin, ?_⟩
  rw [markPin, hroot]
  apply List.mem_filterMap.mpr
  exact ⟨c, hwalk ▸ hc, by simp [hs, Except.toOption]⟩

end IpfsLite.Gc

namespace IpfsLite.Car

open Worklist Gc

theorem exportCar_walkDag_gc (lib : CarLib) (hcodec : ∀ s codec, lib.normaliseCodec s = .ok codec →
    (codec.isDagPb = true ↔ codec.str = "dag-pb")) (store : Store) (root : Bytes)
    (hp : AllPresent lib store root) (exchange : Bytes → Except PyError (Option Bytes)) (fuel : ℕ)
    (hfuel : walkBound lib.toDagLib false store ≤ fuel) :
    ((exportBlocks lib (stored store) exchange fuel root).map Prod.fst = (walked lib store root).1 ∧
      (exportWalk lib (stored store) exchange fuel root).2 = (walked lib store root).2) ∧
    ∀ (pins : PinMap) (pinStr cidStr : String) (cid : lib.Cid), RoundTrips lib.toDagLib store →
      pins.get? pinStr = some (.ofType "recursive") → pinRoot lib.toDagLib pinStr = .ok root →
      lib.parseCid cidStr = .ok cid → lib.cidToBytes cid = root →
      let after := (gc lib.toDagLib store pins healthy).1
      exportCar lib (stored after) exchange fuel cidStr = exportCar lib (stored store) exchange fuel cidStr ∧
        ∀ c ∈ (exportWalk lib (stored after) exchange fuel root).1, asksExchange (stored after) c = false := by
  have hwalk : exportWalk lib (stored store) exchange fuel root = walked lib store root :=
    exportWalk_eq hcodec hp hfuel
  have hkeys (c : Bytes) (hc : c ∈ (walked lib store root).1) : c ∈ store.keys := walked_keys hcodec hp hc
  refine ⟨⟨?_, by rw [hwalk]⟩, ?_⟩
  · rw [exportBlocks, hwalk, List.map_filterMap]
    refine (List.filterMap_congr fun c hc => ?_).trans List.filterMap_some
    obtain ⟨data, hdata⟩ := fetch_stored lib exchange (hkeys c hc)
    simp [hdata, Except.toOption]
  · intro pins pinStr cidStr cid hround hpin hroot hcid hbytes after
    have hkept (c : Bytes) (hc : c ∈ (walked lib store root).1) : c ∈ after.keys :=
      gc_keeps_walk hround hpin hroot hkeys c hc
    have hget (c : Bytes) (hc : c ∈ (walked lib store root).1) : stored after c = stored store c :=
      congrArg Except.ok (gc_get? (hkept c hc))
    have hfetch (c : Bytes) (hc : c ∈ (walked lib store root).1) :
        fetch lib (stored after) exchange c = fetch lib (stored store) exchange c := by
      simp only [fetch, hget c hc]
    have hafter : exportWalk lib (stored after) exchange fuel root = walked lib store root := by
      rw [← hwalk]
      apply run_congr
      intro c hc
      change c ∈ (exportWalk lib (stored store) exchange fuel root).1 at hc
      rw [hwalk] at hc
      simp only [exportVisit, hfetch c hc]
    have hblocks : exportBlocks lib (stored after) exchange fuel root =
        exportBlocks lib (stored store) exchange fuel root := by
      rw [exportBlocks, exportBlocks, hafter, hwalk]
      apply List.filterMap_congr
      intro c hc
      rw [hfetch c hc]
    constructor
    · simp only [exportCar, hcid, hbytes, hblocks, hafter, hwalk]
    · intro c hc
      rw [hafter] at hc
      obtain ⟨data, hdata⟩ := Dict.mem_keys.mp (hkept c hc)
      simp [asksExchange, stored, hdata]

def linkCarLib : CarLib := { sampleLib with toDagLib := linkLib }

theorem linkStore_present : AllPresent linkCarLib linkStore KnownCid.linkToA.bytes := by
  intro c hc
  have hmem : c ∈ [KnownCid.linkToA.bytes, KnownCid.rawA.bytes] := by
    induction hc with
    | refl => simp
    | @tail m d _ hedge ih =>
      obtain ⟨cs, hcs, hd⟩ := hedge
      rcases List.mem_pair.mp ih with rfl | rfl
      · obtain rfl : [KnownCid.rawA.bytes] = cs := Except.ok.inj ((show _ = _ from rfl).trans hcs)
        simp [List.mem_singleton.mp hd]
      · obtain rfl : [] = cs := Except.ok.inj ((show _ = _ from rfl).trans hcs)
        contradiction
  exact hmem

theorem exportCar_walkDag_gc_link :
    exportCar linkCarLib (stored (gc linkLib linkStore linkPins healthy).1) offline 9 KnownCid.linkToA.str =
      exportCar linkCarLib (stored linkStore) offline 9 KnownCid.linkToA.str := by
  exact ((exportCar_walkDag_gc linkCarLib (fun _ _ => ofTable_normaliseCodec) linkStore
    KnownCid.linkToA.bytes linkStore_present offline
    9 (by decide)).2 linkPins KnownCid.linkToA.str KnownCid.linkToA.str .linkToA linkStore_roundTrips rfl rfl
    rfl rfl).1

end IpfsLite.Car
