import IpfsLite.CarGc

/-!
What `import_car` leaves in the blockstore, for every file and for every way it can end, and which
blocks are there when it returns under `strict`.
-/

namespace IpfsLite.Car

open Leb128 Worklist

/-- The multihash inside the bytes of a CID: all of them in version 0, what follows the version and
the codec in version 1. -/
inductive CidMultihash : Bytes → Bytes → Prop
  | v0 (digest : Bytes) (h : digest.length = 32) :
      CidMultihash (0x12 :: 0x20 :: digest) (0x12 :: 0x20 :: digest)
  | v1 {p q mh : Bytes} {codec : ℕ} (hp : Encodes p 1) (hq : Encodes q codec) :
      CidMultihash (p ++ (q ++ mh)) mh

def MultihashParts (bytes : Bytes) (mh : Multihash) : Prop :=
  ∃ p q, bytes = p ++ (q ++ mh.digest) ∧ Encodes p mh.code ∧ Encodes q mh.length ∧
    mh.digest.length = mh.length

variable {hash : ℕ → Bytes → Option Bytes}

def HashMatches (hash : ℕ → Bytes → Option Bytes) (block : Bytes × Bytes) : Prop :=
  ∃ bytes mh full, CidMultihash block.1 bytes ∧ MultihashParts bytes mh ∧
    hash mh.code block.2 = some full ∧ mh.digest = full.take mh.length

structure HashesCorrectly (lib : CarLib) (hash : ℕ → Bytes → Option Bytes) : Prop where
  parse : ∀ b cid, lib.parseCidBytes b = .ok cid → CidMultihash b (lib.multihash cid)
  decode : ∀ b mh, lib.multihashDecode b = .ok mh → MultihashParts b mh
  digest : ∀ data code length d, lib.multihashDigest data code length = .ok d →
    ∃ full, hash code data = some full ∧ d = full.take length

def Sound (hash : ℕ → Bytes → Option Bytes) (store : Store) : Prop :=
  ∀ c data, store.get? c = some data → HashMatches hash (c, data)

variable {lib : CarLib} {f : FileReads} {faults : StoreFaults} {strict : Bool} {store : Store}

theorem MatchesMultihash.hashMatches (hlib : HashesCorrectly lib hash) {block : Bytes × Bytes}
    (h : MatchesMultihash lib block) : HashMatches hash block := by
  obtain ⟨cid, mh, hcid, hmh, hdigest⟩ := h
  obtain ⟨full, hfull, htake⟩ := hlib.digest _ _ _ _ hdigest
  exact ⟨lib.multihash cid, mh, full, hlib.parse _ _ hcid, hlib.decode _ _ hmh, hfull, htake⟩

variable (lib f faults) in
theorem readBlocks_puts (k : ℕ) (rest : Bytes) {puts : List (Bytes × Bytes)}
    (h : ∀ b ∈ puts, MatchesMultihash lib b) :
    ∀ b ∈ (readBlocks lib f faults k rest puts).1, MatchesMultihash lib b := by
  induction k generalizing rest puts with
  | zero => exact h
  | succ k ih =>
    simp only [readBlocks]
    split
    · split_ifs <;> exact h
    · split
      · exact h
      · split_ifs
        · exact h
        · split
          · exact h
          · rename_i block hblock
            split
            · exact h
            · apply ih
              intro b hb
              rcases List.mem_append.mp hb with hb | hb
              · exact h b hb
              · obtain ⟨n, -, -, hm⟩ := readBlock_ok.mp hblock
                rwa [List.mem_singleton.mp hb]

theorem importCar_puts {bytes : Bytes} :
    ∀ b ∈ (importCar lib f faults strict store bytes).1, MatchesMultihash lib b := by
  unfold importCar
  split
  · split_ifs <;> simp
  · split
    · simp
    · rename_i roots rest _
      have hputs : ∀ b ∈ (readBlocks lib f faults rest.length rest []).1, MatchesMultihash lib b :=
        readBlocks_puts lib f faults _ _ (by simp)
      generalize readBlocks lib f faults rest.length rest [] = r at hputs ⊢
      obtain ⟨puts, ended⟩ := r
      cases ended with
      | error e => exact hputs
      | ok u =>
        simp only
        split <;> exact hputs

theorem Sound.set (h : Sound hash store) {block : Bytes × Bytes} (hb : HashMatches hash block) :
    Sound hash (store.set block.1 block.2) := by
  intro c data hc
  rw [Dict.get?_set] at hc
  split_ifs at hc with he
  · obtain rfl := Option.some.inj hc
    rwa [he]
  · exact h c data hc

theorem Sound.putAll {puts : List (Bytes × Bytes)} (h : Sound hash store)
    (hp : ∀ b ∈ puts, HashMatches hash b) : Sound hash (putAll store puts) := by
  induction puts generalizing store with
  | nil => exact h
  | cons b puts ih =>
    exact ih (h.set (hp b (by simp))) fun d hd => hp d (List.mem_cons_of_mem b hd)

theorem putAll_keys {puts : List (Bytes × Bytes)} {c : Bytes} (h : c ∈ store.keys) :
    c ∈ (putAll store puts).keys := by
  induction puts generalizing store with
  | nil => exact h
  | cons b puts ih => exact ih ((Dict.mem_keys_set ..).mpr (.inr h))

/-- After any number of the puts of an import: the import may be ended there by an exception, also
by one of a put whose block is already in the store. -/
theorem importCar_sound (lib : CarLib) (hash : ℕ → Bytes → Option Bytes)
    (hlib : HashesCorrectly lib hash) (f : FileReads) (faults : StoreFaults) (strict : Bool)
    (store : Store) (hstore : Sound hash store) (bytes : Bytes) (k : ℕ) :
    let after := putAll store ((importCar lib f faults strict store bytes).1.take k)
    Sound hash after ∧ ∀ c ∈ store.keys, c ∈ after.keys := by
  intro after
  constructor
  · apply hstore.putAll
    intro b hb
    exact (importCar_puts b (List.mem_of_mem_take hb)).hashMatches hlib
  · exact fun c hc => putAll_keys hc

def sampleHash (code : ℕ) (data : Bytes) : Option Bytes :=
  if code = 18 then [([97], sha256A.drop 2), ([0x18], sha256Truncated.drop 2)].lookup data else none

theorem sampleLib_hashesCorrectly : HashesCorrectly sampleLib sampleHash where
  parse b cid h := by
    obtain ⟨hcid, rfl⟩ := ofTable_parseCidBytes h
    rcases List.mem_pair.mp hcid with rfl | rfl
    · exact .v1 (p := [1]) (q := [85]) (.last (by decide)) (.last (by decide))
    · exact .v1 (p := [1]) (q := [113]) (.last (by decide)) (.last (by decide))
  decode b mh h := by
    simp only [sampleLib] at h
    split at h
    · rename_i digest
      split_ifs at h with hlen
      obtain rfl := Except.ok.inj h
      exact ⟨[18], [32], rfl, .last (by decide), .last (by decide), hlen⟩
    · contradiction
  digest data code length d h := by
    simp only [sampleLib] at h
    split_ifs at h with hcode
    obtain ⟨rfl, rfl⟩ := hcode
    simp only [decodeTable] at h
    split at h
    · rename_i v hv
      obtain rfl := Except.ok.inj h
      have hlen : v.length = 32 := by
        obtain ⟨l₁, l₂, hl, -⟩ := List.lookup_eq_some_iff.mp hv
        have hmem : (data, v) ∈ [([97], sha256A.drop 2), ([0x18], sha256Truncated.drop 2)] := by
          rw [hl]
          simp
        rcases List.mem_pair.mp hmem with he | he <;> rw [(Prod.mk.inj he).2] <;> rfl
      exact ⟨v, by simpa [sampleHash] using hv, by rw [List.take_of_length_le (by omega)]⟩
    · contradiction

theorem importCar_sound_sample :
    Sound sampleHash (putAll .empty ((importCar sampleLib .whole .none true .empty
      (sampleCar ++ [9, 1])).1.take 1)) :=
  (importCar_sound sampleLib sampleHash sampleLib_hashesCorrectly .whole .none true .empty (by simp [Sound])
    (sampleCar ++ [9, 1]) 1).1

section Strict

variable {i : ℕ} {root : String}

theorem checkRoots_ok {roots : List String} (h : checkRoots lib faults strict store i roots = .ok ()) :
    ∀ root ∈ roots, ∃ j, checkRoot lib faults strict store j root = .ok () := by
  induction roots generalizing i with
  | nil => simp
  | cons r roots ih =>
    obtain ⟨u, hr, hrest⟩ := bind_ok.mp h
    intro root hroot
    rcases List.mem_cons.mp hroot with rfl | hroot
    · exact ⟨i, hr⟩
    · exact ih hrest root hroot

theorem checkRoot_strict (h : checkRoot lib faults true store i root = .ok ()) :
    ∃ cid, lib.parseCid root = .ok cid ∧ (walkDag lib.toDagLib store (getBlock faults store i) true true
      (lib.cidToBytes cid)).2 = .finished := by
  obtain ⟨present, -, h⟩ := bind_ok.mp h
  split_ifs at h with hpresent hstrict
  · split at h
    · rename_i hwalk
      obtain ⟨cid, hcid, hwalk⟩ := bind_ok.mp hwalk
      refine ⟨cid, hcid, ?_⟩
      split at hwalk
      · assumption
      · contradiction
      · contradiction
    · contradiction
  · exact absurd rfl hstrict

theorem expand_strict {c : Bytes} {cs : List Bytes}
    (h : expand lib.toDagLib (getBlock faults store i) true true c = .ok cs) :
    ∃ data, store.get? c = some data ∧ blockLinks lib.toDagLib true c data = .ok cs := by
  rw [expand, if_pos rfl] at h
  obtain ⟨found, hfound, h⟩ := bind_ok.mp h
  have hget : store.get? c = found := by
    unfold getBlock at hfound
    split at hfound
    · contradiction
    · exact Except.ok.inj hfound
  cases found with
  | none => simp [blockOrMissing] at h
  | some data => exact ⟨data, hget, h⟩

theorem walkDag_finished_reach {bytes c : Bytes}
    (hcodec : ∀ s codec, lib.normaliseCodec s = .ok codec →
      (codec.isDagPb = true ↔ codec.str = "dag-pb"))
    (hwalk : (walkDag lib.toDagLib store (getBlock faults store i) true true bytes).2 = .finished)
    (hc : Reach (storeLinks lib store) bytes c) :
    ∃ data cs, store.get? c = some data ∧ blockLinks lib.toDagLib true c data = .ok cs := by
  have hends := run_ends (expand lib.toDagLib (getBlock faults store i) true true) bytes
    (walkBound lib.toDagLib true store)
  have hreach : Reach (expand lib.toDagLib (getBlock faults store i) true true) bytes c ∧
      ∃ cs, expand lib.toDagLib (getBlock faults store i) true true c = .ok cs := by
    induction hc with
    | refl => exact ⟨.refl, run_finished hwalk _ (by simpa using hends.complete hwalk _ .refl)⟩
    | @tail m d _ hedge ih =>
      obtain ⟨hm, cs, hcs⟩ := ih
      obtain ⟨data, hdata, hlinks⟩ := expand_strict hcs
      obtain ⟨ds, hds, hd⟩ := hedge
      rw [storeLinks, hdata] at hds
      simp only at hds
      rw [exportLinks_eq hcodec, blockLinks_strict hlinks] at hds
      obtain rfl := Except.ok.inj hds
      have hstep : Reach (expand lib.toDagLib (getBlock faults store i) true true) bytes d :=
        hm.tail ⟨cs, hcs, hd⟩
      exact ⟨hstep, run_finished hwalk _ (by simpa using hends.complete hwalk _ hstep)⟩
  obtain ⟨-, cs, hcs⟩ := hreach
  obtain ⟨data, hdata, hlinks⟩ := expand_strict hcs
  exact ⟨data, cs, hdata, hlinks⟩

theorem walked_finished {bytes : Bytes}
    (hcodec : ∀ s codec, lib.normaliseCodec s = .ok codec →
      (codec.isDagPb = true ↔ codec.str = "dag-pb"))
    (h : ∀ c, Reach (storeLinks lib store) bytes c →
      ∃ data cs, store.get? c = some data ∧ blockLinks lib.toDagLib true c data = .ok cs) :
    (walked lib store bytes).2 = .finished := by
  have hends := run_ends (expand lib.toDagLib (stored store) true false) bytes
    (walkBound lib.toDagLib false store)
  cases hout : (walked lib store bytes).2 with
  | finished => rfl
  | starved => exact absurd hout (walkDag_fed (fun c data hc => Except.ok.inj hc) bytes)
  | raised e =>
    obtain ⟨c, hlast, hraises⟩ := hends.raised e hout
    have hc := hends.sound c (List.mem_of_getLast? hlast)
    obtain ⟨data, cs, hdata, hlinks⟩ := h c (walked_reach hcodec hc)
    simp [expand, stored, hdata, Except.bind, blockOrMissing, blockLinks_strict hlinks] at hraises

end Strict

theorem importCar_strict_complete (lib : CarLib)
    (hcodec : ∀ s codec, lib.normaliseCodec s = .ok codec →
      (codec.isDagPb = true ↔ codec.str = "dag-pb"))
    (f : FileReads) (faults : StoreFaults) (store : Store) (bytes : Bytes)
    (puts : List (Bytes × Bytes)) (roots : List String)
    (h : importCar lib f faults true store bytes = (puts, .ok roots)) :
    let after := putAll store puts
    ∀ root ∈ roots, ∃ cid, lib.parseCid root = .ok cid ∧
      (∀ c, Reach (storeLinks lib after) (lib.cidToBytes cid) c → ∃ data, after.get? c = some data) ∧
      ∀ (exchange : Bytes → Except PyError (Option Bytes)) (fuel : ℕ),
        walkBound lib.toDagLib false after ≤ fuel →
        (exportCar lib (stored after) exchange fuel root).2 = .finished ∧
          ∀ c ∈ (exportWalk lib (stored after) exchange fuel (lib.cidToBytes cid)).1,
            asksExchange (stored after) c = false := by
  intro after root hroot
  have hcheck : checkRoots lib faults true after 0 roots = .ok () := by
    by_cases hb : bytes = []
    · subst hb
      obtain ⟨rfl, rfl⟩ : [] = puts ∧ [] = roots := by
        simpa [importCar, readVarint, readVarintFrom] using h
      rfl
    · obtain ⟨_, _, _, _, -, -, -, -, -, hcheck⟩ := importCar_ok hb h
      exact hcheck
  obtain ⟨i, hi⟩ := checkRoots_ok hcheck root hroot
  obtain ⟨cid, hcid, hwalk⟩ := checkRoot_strict hi
  have hreach (c : Bytes) (hc : Reach (storeLinks lib after) (lib.cidToBytes cid) c) :
      ∃ data cs, after.get? c = some data ∧ blockLinks lib.toDagLib true c data = .ok cs :=
    walkDag_finished_reach hcodec hwalk hc
  have hpresent : AllPresent lib after (lib.cidToBytes cid) := by
    intro c hc
    obtain ⟨data, -, hdata, -⟩ := hreach c hc
    exact Dict.mem_keys.mpr ⟨data, hdata⟩
  refine ⟨cid, hcid, ?_, ?_⟩
  · intro c hc
    obtain ⟨data, -, hdata, -⟩ := hreach c hc
    exact ⟨data, hdata⟩
  · intro exchange fuel hfuel
    have hexport : exportWalk lib (stored after) exchange fuel (lib.cidToBytes cid) =
        walked lib after (lib.cidToBytes cid) := exportWalk_eq hcodec hpresent hfuel
    constructor
    · simp only [exportCar, hcid, hexport]
      exact walked_finished hcodec hreach
    · intro c hc
      rw [hexport] at hc
      obtain ⟨data, hdata⟩ := Dict.mem_keys.mp (walked_keys hcodec hpresent hc)
      simp [asksExchange, stored, hdata]

theorem importCar_strict_complete_sample :
    (exportCar sampleLib (stored (putAll .empty [(KnownCid.rawA.bytes, [97])])) offline 9
      KnownCid.rawA.str).2 = .finished := by
  obtain ⟨cid, -, -, hexport⟩ := importCar_strict_complete sampleLib (fun _ _ => ofTable_normaliseCodec)
    .whole .none .empty sampleCar [(KnownCid.rawA.bytes, [97])] [KnownCid.rawA.str] (by decide)
    KnownCid.rawA.str (by simp)
  exact (hexport offline 9 (by decide)).1

end IpfsLite.Car
