import IpfsLite.CarImport
import IpfsLite.DagWalk

namespace IpfsLite.Car

open Worklist

/-- `walk_dag` outside `strict` and `export_car` read the same links, although one looks at the codec
and the other at its name. -/
theorem exportLinks_eq {lib : CarLib} (hcodec : ∀ s codec, lib.normaliseCodec s = .ok codec →
    (codec.isDagPb = true ↔ codec.str = "dag-pb")) (cid data : Bytes) :
    exportLinks lib cid data = blockLinks lib.toDagLib false cid data := by
  unfold exportLinks blockLinks
  cases lib.parseCidCodec cid with
  | error e => rfl
  | ok codec =>
    cases hnorm : lib.normaliseCodec codec with
    | error e => simp [hnorm, bind, Except.bind]
    | ok normCodec =>
      have hiff := hcodec codec normCodec hnorm
      have hnames : normCodec.str ∈ ["dag-json", "dag-cbor", "ipld", "dag-jose"] ↔
          normCodec.str ∈ linkCodecs := by
        simp only [linkCodecs, List.mem_cons, List.not_mem_nil, or_false]
        tauto
      simp only [hnorm, bind, Except.bind, hiff, hnames]
      rfl

def storeLinks (lib : CarLib) (source : Store) (cid : Bytes) : Except PyError (List Bytes) :=
  match source.get? cid with
  | some data => exportLinks lib cid data
  | none => .ok []

def AllPresent (lib : CarLib) (source : Store) (root : Bytes) : Prop :=
  ∀ c, Reach (storeLinks lib source) root c → c ∈ source.keys

variable {lib : CarLib} {source : Store} {faults : StoreFaults} {i : ℕ}
  {exchange : Bytes → Except PyError (Option Bytes)} {root : Bytes} {fuel : ℕ}

theorem fetch_present {c data : Bytes} (hc : c ∈ source.keys)
    (h : fetch lib (getBlock faults source i) exchange c = .ok data) : source.get? c = some data := by
  obtain ⟨stored, hs⟩ := Dict.mem_keys.mp hc
  unfold fetch getBlock at h
  split at h
  · contradiction
  · obtain rfl : stored = data := by simpa [hs, bind, Except.bind] using h
    exact hs

theorem exportVisit_links {c : Bytes} {cs : List Bytes} (hc : c ∈ source.keys)
    (h : exportVisit lib (getBlock faults source i) exchange c = .ok cs) :
    storeLinks lib source c = .ok cs := by
  obtain ⟨data, hdata, h⟩ := bind_ok.mp h
  simpa only [storeLinks, fetch_present hc hdata] using h

theorem AllPresent.reach (h : AllPresent lib source root) {c : Bytes}
    (hc : Reach (exportVisit lib (getBlock faults source i) exchange) root c) :
    Reach (storeLinks lib source) root c := by
  induction hc with
  | refl => exact .refl
  | tail _ he ih =>
    obtain ⟨cs, hcs, hd⟩ := he
    exact ih.tail ⟨cs, exportVisit_links (h _ ih) hcs, hd⟩

structure Exports (lib : CarLib) (source : Store) (root : Bytes) (blocks : List (Bytes × Bytes)) :
    Prop where
  nodup : (blocks.map Prod.fst).Nodup
  stored : ∀ b ∈ blocks, source.get? b.1 = some b.2
  mem_iff : ∀ c, c ∈ blocks.map Prod.fst ↔ Reach (storeLinks lib source) root c
  links : ∀ b ∈ blocks, ∃ cs, exportLinks lib b.1 b.2 = .ok cs

theorem exportBlocks_exports (hp : AllPresent lib source root)
    (h : (exportWalk lib (getBlock faults source i) exchange fuel root).2 = .finished) :
    Exports lib source root (exportBlocks lib (getBlock faults source i) exchange fuel root) := by
  have hends := run_ends (exportVisit lib (getBlock faults source i) exchange) root fuel
  have hok := run_finished h
  unfold exportBlocks exportWalk at *
  generalize run (exportVisit lib (getBlock faults source i) exchange) fuel (start root) = r at *
  have hmem (b : Bytes × Bytes) (hb : b ∈ r.1.filterMap fun cid =>
      (fetch lib (getBlock faults source i) exchange cid).toOption.map (cid, ·)) :
      b.1 ∈ r.1 ∧ fetch lib (getBlock faults source i) exchange b.1 = .ok b.2 := by
    obtain ⟨c, hc, hb⟩ := List.mem_filterMap.mp hb
    cases hf : fetch lib (getBlock faults source i) exchange c with
    | error e => simp [hf, Except.toOption] at hb
    | ok data =>
      obtain rfl : (c, data) = b := by simpa [hf, Except.toOption] using hb
      exact ⟨hc, hf⟩
  have hkeys (c : Bytes) (hc : c ∈ r.1) : c ∈ source.keys := hp c (hp.reach (hends.sound c hc))
  have hfst : (r.1.filterMap fun cid =>
      (fetch lib (getBlock faults source i) exchange cid).toOption.map (cid, ·)).map Prod.fst = r.1 := by
    rw [List.map_filterMap]
    refine (List.filterMap_congr fun c hc => ?_).trans List.filterMap_some
    obtain ⟨cs, hcs⟩ := hok c hc
    obtain ⟨data, hdata, -⟩ := bind_ok.mp hcs
    simp [hdata, Except.toOption]
  refine ⟨?_, ?_, ?_, ?_⟩
  · rw [hfst]
    simpa using hends.nodup
  · intro b hb
    exact fetch_present (hkeys b.1 (hmem b hb).1) (hmem b hb).2
  · intro c
    rw [hfst]
    refine ⟨fun hc => hp.reach (hends.sound c hc), fun hc => ?_⟩
    have hvisited : Reach (exportVisit lib (getBlock faults source i) exchange) root c ∧ c ∈ r.1 := by
      induction hc with
      | refl => exact ⟨.refl, by simpa using hends.complete h root .refl⟩
      | tail _ he ih =>
        obtain ⟨cs, hcs, hd⟩ := he
        obtain ⟨cs', hcs'⟩ := hok _ ih.2
        obtain rfl : cs = cs' :=
          Except.ok.inj (hcs.symm.trans (exportVisit_links (hkeys _ ih.2) hcs'))
        have hreach := ih.1.tail ⟨cs, hcs', hd⟩
        exact ⟨hreach, by simpa using hends.complete h _ hreach⟩
    exact hvisited.2
  · intro b hb
    obtain ⟨hc, hdata⟩ := hmem b hb
    obtain ⟨cs, hcs⟩ := hok b.1 hc
    obtain ⟨data, hdata', hcs⟩ := bind_ok.mp hcs
    obtain rfl : b.2 = data := Except.ok.inj (hdata.symm.trans hdata')
    exact ⟨cs, hcs⟩

theorem exportCar_finished {get : Bytes → Except PyError (Option Bytes)} {cidStr : String}
    {content : Bytes} (h : exportCar lib get exchange fuel cidStr = (content, .finished)) :
    ∃ rootCid, lib.parseCid cidStr = .ok rootCid ∧
      (exportWalk lib get exchange fuel (lib.cidToBytes rootCid)).2 = .finished ∧
      content = headerFrame lib (lib.cidToBytes rootCid) ++
        (exportBlocks lib get exchange fuel (lib.cidToBytes rootCid)).flatMap (sectionFrame lib) := by
  unfold exportCar at h
  split at h
  · simp at h
  · rename_i rootCid hroot
    obtain ⟨hcontent, hw⟩ := Prod.mk.inj h
    exact ⟨rootCid, hroot, hw, hcontent.symm⟩

end IpfsLite.Car
