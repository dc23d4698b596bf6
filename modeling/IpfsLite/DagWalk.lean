import IpfsLite.DagUtils

/-!
What holds of every walk of `walk_dag`: the fuel of `walkDag` is enough, and reading the links of
a block under `strict` gives the same links wherever it does not raise.
-/

namespace IpfsLite

open Worklist

variable {lib : DagLib} {store : Store} {strict : Bool}

def storedLinks (lib : DagLib) (strict : Bool) (store : Store) : List Bytes :=
  store.entries.flatMap (fun e => (blockLinks lib strict e.1 e.2).toOption.getD [])

theorem mem_storedLinks {c data d : Bytes} {cs : List Bytes} (hs : store.get? c = some data)
    (hcs : blockLinks lib strict c data = .ok cs) (hd : d ∈ cs) : d ∈ storedLinks lib strict store := by
  apply List.mem_flatMap.mpr
  exact ⟨(c, data), Dict.get?_eq_some.mp hs, by simpa [hcs, Except.toOption] using hd⟩

theorem storedLinks_length (lib : DagLib) (strict : Bool) (store : Store) (root : Bytes) :
    (root :: storedLinks lib strict store).length < walkBound lib strict store := by
  simp only [walkBound, storedLinks, List.length_cons, List.length_flatMap]
  omega

theorem walk_fed {visit : Bytes → Except PyError (List Bytes)} (root : Bytes)
    (hv : ∀ c cs, visit c = .ok cs → ∀ d ∈ cs, d ∈ storedLinks lib strict store) :
    (run visit (walkBound lib strict store) (.start root)).2 ≠ .starved := by
  have hlen := storedLinks_length lib strict store root
  apply run_fed (U := root :: storedLinks lib strict store)
  · exact fun c _ cs hcs d hd => List.mem_cons_of_mem _ (hv c cs hcs d hd)
  · simp [Worklist.start]
  · simp [Worklist.start]
  · simp [Worklist.start]
  · simpa [Worklist.start] using hlen

theorem expand_stored {getBlock : Bytes → Except PyError (Option Bytes)} {recursive : Bool}
    (hg : ∀ c data, getBlock c = .ok (some data) → store.get? c = some data) {c : Bytes} {cs : List Bytes}
    (h : expand lib getBlock recursive strict c = .ok cs) :
    ∀ d ∈ cs, d ∈ storedLinks lib strict store := by
  simp only [expand] at h
  split_ifs at h
  · obtain ⟨data, hdata, h⟩ := bind_ok.mp h
    cases data with
    | none =>
      simp only [blockOrMissing] at h
      split_ifs at h
      obtain rfl := Except.ok.inj h
      simp
    | some data => exact fun d hd => mem_storedLinks (hg c data hdata) h hd
  · obtain rfl := Except.ok.inj h
    simp

theorem walkDag_fed {getBlock : Bytes → Except PyError (Option Bytes)} {recursive : Bool}
    (hg : ∀ c data, getBlock c = .ok (some data) → store.get? c = some data) (root : Bytes) :
    (walkDag lib store getBlock recursive strict root).2 ≠ .starved :=
  walk_fed root fun _ _ h => expand_stored hg h

theorem attempt_strict {r : Except PyError Bytes} {cs : List Bytes} (h : attempt true r = .ok cs) :
    attempt false r = .ok cs := by
  cases r with
  | ok c => exact h
  | error e => contradiction

theorem slashLink_strict {v : Option PyValue} {cs : List Bytes}
    (h : slashLink lib true v = .ok cs) : slashLink lib false v = .ok cs := by
  unfold slashLink at h ⊢
  split at h
  · exact attempt_strict h
  · exact attempt_strict h
  · exact h

mutual

theorem extractCids_strict {v : PyValue} {cs : List Bytes} (h : extractCids lib true v = .ok cs) :
    extractCids lib false v = .ok cs := by
  cases v with
  | dict items =>
    rw [extractCids] at h ⊢
    obtain ⟨link, hlink, h⟩ := bind_ok.mp h
    obtain ⟨rest, hrest, h⟩ := bind_ok.mp h
    exact bind_ok.mpr ⟨link, slashLink_strict hlink, bind_ok.mpr ⟨rest, extractValues_strict hrest, h⟩⟩
  | list items =>
    rw [extractCids] at h ⊢
    exact extractItems_strict h
  | cborTag tag value =>
    rw [extractCids] at h ⊢
    split_ifs at h ⊢
    · exact attempt_strict h
    · exact h
  | _ => simpa [extractCids] using h

theorem extractItems_strict {vs : List PyValue} {cs : List Bytes}
    (h : extractItems lib true vs = .ok cs) : extractItems lib false vs = .ok cs := by
  cases vs with
  | nil => simpa [extractItems] using h
  | cons v vs =>
    rw [extractItems] at h ⊢
    obtain ⟨cids, hcids, h⟩ := bind_ok.mp h
    obtain ⟨rest, hrest, h⟩ := bind_ok.mp h
    exact bind_ok.mpr ⟨cids, extractCids_strict hcids, bind_ok.mpr ⟨rest, extractItems_strict hrest, h⟩⟩

theorem extractValues_strict {es : List (PyValue × PyValue)} {cs : List Bytes}
    (h : extractValues lib true es = .ok cs) : extractValues lib false es = .ok cs := by
  match es with
  | [] => simpa [extractValues] using h
  | (k, v) :: es =>
    rw [extractValues] at h ⊢
    obtain ⟨cids, hcids, h⟩ := bind_ok.mp h
    obtain ⟨rest, hrest, h⟩ := bind_ok.mp h
    exact bind_ok.mpr ⟨cids, extractCids_strict hcids, bind_ok.mpr ⟨rest, extractValues_strict hrest, h⟩⟩

end

theorem blockLinks_strict {c data : Bytes} {cs : List Bytes} (h : blockLinks lib true c data = .ok cs) :
    blockLinks lib false c data = .ok cs := by
  unfold blockLinks at h ⊢
  obtain ⟨codec, hcodec, h⟩ := bind_ok.mp h
  refine bind_ok.mpr ⟨codec, hcodec, ?_⟩
  obtain ⟨normCodec, hnorm, h⟩ := bind_ok.mp h
  refine bind_ok.mpr ⟨normCodec, hnorm, ?_⟩
  by_cases hp : normCodec.isDagPb
  · rw [if_pos hp] at h ⊢
    cases hpb : lib.decodeDagPb data with
    | ok pb => simpa only [hpb] using h
    | error e => simp [hpb] at h
  · rw [if_neg hp] at h ⊢
    by_cases hl : normCodec.str ∈ linkCodecs
    · rw [if_pos hl] at h ⊢
      cases hd : (decodeNode lib data codec).bind (extractCids lib true) with
      | error e => simp [hd] at h
      | ok ds =>
        obtain ⟨v, hv, hds⟩ := bind_ok.mp hd
        have hloose := bind_ok.mpr ⟨v, hv, extractCids_strict hds⟩
        simpa only [hd, hloose] using h
    · rw [if_neg hl] at h ⊢
      exact h

end IpfsLite
