import IpfsLite.GcExact
import IpfsLite.PinCids

/-!
`ContentMixin.list_pins`. It walks the recursive pins as `gc` does, but it leaves the root of each walk
to the pin's own entry, whose key is the string that the user gave.
-/

namespace IpfsLite

open Worklist Gc

namespace PinListing

variable (lib : DagLib) (store : Store) (pins : PinMap) (reads : Reads)

/-- The body of the loop takes the string of each CID but the root's before the walk goes on. -/
def listVisit (pin : String) (root cid : Bytes) : Except PyError (List Bytes) :=
  if cid = root then expand lib (Gc.getBlock store reads pin) true false cid
  else (display lib cid).bind fun _ => expand lib (Gc.getBlock store reads pin) true false cid

def listWalk (pin : String) (root : Bytes) : List Bytes :=
  (run (listVisit lib store reads pin root) (walkBound lib false store) (.start root)).1

def indirectOf (pin : String × PinValue) : List String :=
  if pin.2.isType "recursive" then
    match pinRoot lib pin.1 with
    | .error _ => []
    | .ok root =>
      ((listWalk lib store reads pin.1 root).filterMap fun cid =>
        if cid = root then none else (display lib cid).toOption).filter (· ∉ pins.keys)
  else []

def indirectPins : PinMap :=
  Dict.empty.setAll (pins.entries.flatMap (indirectOf lib store pins reads)) (.ofType "indirect")

def listPins (typeFilter : String) : Except PyError PinMap :=
  if typeFilter ∉ ["all", "direct", "recursive", "indirect"] then
    .error ⟨.valueError,
      "Invalid type_filter. Must be 'all', 'direct', 'recursive', or 'indirect'"⟩
  else if typeFilter ∈ ["direct", "recursive"] then .ok (pins.filter fun e => e.2.isType typeFilter)
  else if typeFilter = "indirect" then .ok (indirectPins lib store pins reads)
  else .ok (pins.update (indirectPins lib store pins reads))

variable {lib store pins reads}

/-- Displaying a CID and parsing strings agree: a parsed CID is displayed by a string that parses to it,
and what a displayed string parses to is displayed by that string. -/
structure StableDisplay (lib : DagLib) : Prop where
  parsed : ∀ cidStr c, pinRoot lib cidStr = .ok c → ∃ s, display lib c = .ok s ∧ pinRoot lib s = .ok c
  displayed : ∀ c s, display lib c = .ok s → ∃ d, pinRoot lib s = .ok d ∧ display lib d = .ok s

def Denotes (lib : DagLib) (r c : Bytes) : Prop := ∃ s, display lib r = .ok s ∧ pinRoot lib s = .ok c

theorem markWalk_root (pin : String × PinValue) (root : Bytes) : root ∈ markWalk lib store reads pin root := by
  have hhead := run_head (markVisit lib store reads pin) root (n := walkBound lib false store)
    (by unfold walkBound; omega)
  exact List.mem_of_head? hhead

theorem markWalk_direct {pin : String × PinValue} (h : pin.2.isType "recursive" = false) {root r : Bytes}
    (hr : r ∈ markWalk lib store reads pin root) : r = root := by
  have hreach := (run_ends (markVisit lib store reads pin) root (walkBound lib false store)).sound r hr
  induction hreach with
  | refl => rfl
  | tail _ hedge _ =>
    obtain ⟨cs, hcs, hd⟩ := hedge
    simp [markVisit_links hcs, linksOf, h] at hd

theorem listWalk_eq {pin : String × PinValue} (h : pin.2.isType "recursive" = true) {root : Bytes} {s : String}
    (hroot : display lib root = .ok s) :
    listWalk lib store reads pin.1 root = markWalk lib store reads pin root := by
  have hvisit : listVisit lib store reads pin.1 root = markVisit lib store reads pin := by
    funext c
    by_cases hc : c = root
    · simp [listVisit, markVisit, hc, hroot, h, Except.bind]
    · simp [listVisit, markVisit, hc, h]
  rw [listWalk, markWalk, hvisit]

def Below (lib : DagLib) (store : Store) (pins : PinMap) (reads : Reads) (s : String) : Prop :=
  ∃ pin ∈ pins.entries, pin.2.isType "recursive" = true ∧ ∃ root r, pinRoot lib pin.1 = .ok root ∧
    r ∈ markWalk lib store reads pin root ∧ r ≠ root ∧ display lib r = .ok s

theorem mem_reachableCids_iff {s : String} : s ∈ reachableCids lib store pins reads ↔
    (∃ k ∈ pins.keys, ∃ c, pinRoot lib k = .ok c ∧ display lib c = .ok s) ∨ Below lib store pins reads s := by
  rw [mem_reachableCids_walk]
  constructor
  · rintro ⟨pin, hpin, root, r, hroot, hr, hs⟩
    by_cases hne : r = root
    · exact .inl ⟨pin.1, List.mem_map_of_mem hpin, root, hroot, hne ▸ hs⟩
    · cases hrec : pin.2.isType "recursive" with
      | true => exact .inr ⟨pin, hpin, hrec, root, r, hroot, hr, hne, hs⟩
      | false => exact absurd (markWalk_direct hrec hr) hne
  · rintro (⟨k, hk, c, hc, hs⟩ | ⟨pin, hpin, -, root, r, hroot, hr, -, hs⟩)
    · obtain ⟨pin, hpin, rfl⟩ := List.mem_map.mp hk
      exact ⟨pin, hpin, c, c, hc, markWalk_root pin c, hs⟩
    · exact ⟨pin, hpin, root, r, hroot, hr, hs⟩

def RecursivePin (pins : PinMap) (pin : String × PinValue) : Prop :=
  pin ∈ pins.entries ∧ pin.2.isType "recursive" = true

/-- `add_pin` stores nothing else; a pins file that was edited can hold other values. -/
def Typed (v : PinValue) : Prop := v.isType "direct" = true ∨ v.isType "recursive" = true

def FromRecursive (lib : DagLib) (store : Store) (pins : PinMap) (c : Bytes) : Prop :=
  ∃ pin, RecursivePin pins pin ∧ ∃ r, Protects lib store pin r ∧ Denotes lib r c

def Indirect (lib : DagLib) (store : Store) (pins : PinMap) (c : Bytes) : Prop :=
  FromRecursive lib store pins c ∧ ∀ pin ∈ pins.entries, Typed pin.2 → pinRoot lib pin.1 ≠ .ok c

structure Agrees (lib : DagLib) (store : Store) (pins : PinMap) (listed : PinMap) (marked : List String) :
    Prop where
  same : ∀ c, (∃ k ∈ listed.keys, pinRoot lib k = .ok c) ↔ ∃ s ∈ marked, pinRoot lib s = .ok c
  unique : ∀ k ∈ listed.keys, ∀ k' ∈ listed.keys, ∀ c, pinRoot lib k = .ok c → pinRoot lib k' = .ok c →
    k = k'
  indirect : ∀ c, (∃ s, listed.get? s = some (.ofType "indirect") ∧ pinRoot lib s = .ok c) ↔
    Indirect lib store pins c

/-- When the pins are spelled so that the listing can tell pinned CIDs from others, and no walk stops
before it has come to what is only reachable. -/
structure Lists (lib : DagLib) (store : Store) (pins : PinMap) : Prop where
  single : ∀ k ∈ pins.keys, ∀ k' ∈ pins.keys, ∀ c, pinRoot lib k = .ok c → pinRoot lib k' = .ok c → k = k'
  canonical : ∀ k ∈ pins.keys, ∀ c, pinRoot lib k = .ok c → ∀ pin, RecursivePin pins pin →
    ∀ root r, pinRoot lib pin.1 = .ok root → Comes lib store healthy pin root r → r ≠ root →
      Denotes lib r c → display lib c = .ok k
  comes : ∀ c, FromRecursive lib store pins c → (∀ k ∈ pins.keys, pinRoot lib k ≠ .ok c) →
    ∃ pin, RecursivePin pins pin ∧ ∃ root r, pinRoot lib pin.1 = .ok root ∧
      Comes lib store healthy pin root r ∧ Denotes lib r c
  stray : ∀ pin ∈ pins.entries, ¬Typed pin.2 → ∀ c, pinRoot lib pin.1 = .ok c →
    (pin.2.isType "indirect" = true ↔ FromRecursive lib store pins c)

theorem Below.fromRecursive {s : String} (h : Below lib store pins healthy s) {c : Bytes}
    (hc : pinRoot lib s = .ok c) : FromRecursive lib store pins c := by
  obtain ⟨pin, hpin, hrec, root, r, hroot, hr, -, hs⟩ := h
  refine ⟨pin, ⟨hpin, hrec⟩, r, ⟨root, hroot, ?_⟩, s, hs, hc⟩
  obtain ⟨before, after, hw, -⟩ := mem_markWalk.mp hr
  rw [← mem_walkOrder, hw]
  simp

theorem value_of_get? {k : String} {v : PinValue} (hk : pins.get? k = some v) {pin : String × PinValue}
    (hpin : pin ∈ pins.entries) (he : pin.1 = k) : pin.2 = v := by
  have hget := Dict.get?_eq_some.mpr hpin
  rw [he, hk] at hget
  exact (Option.some.inj hget).symm

variable (hlib : StableDisplay lib)

include hlib

theorem mem_indirectOf {pin : String × PinValue} {s : String} :
    s ∈ indirectOf lib store pins reads pin ↔ s ∉ pins.keys ∧ pin.2.isType "recursive" = true ∧
      ∃ root r, pinRoot lib pin.1 = .ok root ∧ r ∈ markWalk lib store reads pin root ∧ r ≠ root ∧
        display lib r = .ok s := by
  unfold indirectOf
  cases hrec : pin.2.isType "recursive" with
  | false => simp
  | true =>
    cases hroot : pinRoot lib pin.1 with
    | error e => simp
    | ok root =>
      obtain ⟨t, ht, -⟩ := hlib.parsed _ _ hroot
      simp only [if_true, List.mem_filter, decide_eq_true_iff, List.mem_filterMap, listWalk_eq hrec ht,
        Except.ok.injEq]
      constructor
      · rintro ⟨⟨r, hr, hs⟩, hfresh⟩
        split_ifs at hs with hne
        refine ⟨hfresh, trivial, root, r, rfl, hr, hne, ?_⟩
        cases hd : display lib r with
        | error e => simp [hd, Except.toOption] at hs
        | ok u => simpa [hd, Except.toOption] using hs
      · rintro ⟨hfresh, -, _, r, rfl, hr, hne, hs⟩
        exact ⟨⟨r, hr, by simp [hne, hs, Except.toOption]⟩, hfresh⟩

theorem mem_indirect {s : String} : s ∈ pins.entries.flatMap (indirectOf lib store pins reads) ↔
    s ∉ pins.keys ∧ Below lib store pins reads s := by
  simp only [List.mem_flatMap, mem_indirectOf hlib, Below]
  constructor
  · rintro ⟨pin, hpin, hfresh, h⟩
    exact ⟨hfresh, pin, hpin, h⟩
  · rintro ⟨hfresh, pin, hpin, h⟩
    exact ⟨pin, hpin, hfresh, h⟩

open Classical in
theorem get?_listed (s : String) : (pins.update (indirectPins lib store pins reads)).get? s =
    if s ∉ pins.keys ∧ Below lib store pins reads s then some (.ofType "indirect") else pins.get? s := by
  rw [Dict.get?_update, indirectPins, Dict.get?_setAll]
  simp only [mem_indirect hlib, Dict.get?_empty]
  split_ifs <;> simp

theorem mem_listed {s : String} : s ∈ (pins.update (indirectPins lib store pins reads)).keys ↔
    s ∈ pins.keys ∨ Below lib store pins reads s := by
  rw [Dict.mem_keys, get?_listed hlib]
  by_cases hs : s ∈ pins.keys
  · simp [hs, ← Dict.mem_keys]
  · have hnone := Dict.get?_eq_none.mpr hs
    by_cases hb : Below lib store pins reads s <;> simp [hs, hb, hnone]

theorem listed_denotes (c : Bytes) :
    (∃ k ∈ (pins.update (indirectPins lib store pins reads)).keys, pinRoot lib k = .ok c) ↔
      ∃ s ∈ reachableCids lib store pins reads, pinRoot lib s = .ok c := by
  simp only [mem_listed hlib, mem_reachableCids_iff]
  constructor
  · rintro ⟨k, hk | hk, hc⟩
    · obtain ⟨s, hs, hsc⟩ := hlib.parsed k c hc
      exact ⟨s, .inl ⟨k, hk, c, hc, hs⟩, hsc⟩
    · exact ⟨k, .inr hk, hc⟩
  · rintro ⟨s, ⟨k, hk, d, hd, hs⟩ | hs, hc⟩
    · obtain ⟨t, ht, htd⟩ := hlib.parsed k d hd
      obtain rfl : t = s := Except.ok.inj (ht.symm.trans hs)
      obtain rfl : d = c := Except.ok.inj (htd.symm.trans hc)
      exact ⟨k, .inl hk, hd⟩
    · exact ⟨s, .inr hs, hc⟩

theorem Denotes.display {r c : Bytes} (h : Denotes lib r c) : ∃ s, display lib r = .ok s ∧
    pinRoot lib s = .ok c ∧ display lib c = .ok s := by
  obtain ⟨s, hs, hc⟩ := h
  obtain ⟨d, hd, hds⟩ := hlib.displayed r s hs
  obtain rfl : d = c := Except.ok.inj (hd.symm.trans hc)
  exact ⟨s, hs, hc, hds⟩

theorem Below.display {s : String} (h : Below lib store pins reads s) {c : Bytes}
    (hc : pinRoot lib s = .ok c) : display lib c = .ok s := by
  obtain ⟨-, -, -, -, r, -, -, -, hs⟩ := h
  obtain ⟨t, ht, -, hct⟩ := Denotes.display hlib ⟨s, hs, hc⟩
  rw [hct, ← ht, hs]

theorem unique_iff :
    (∀ k ∈ (pins.update (indirectPins lib store pins healthy)).keys,
      ∀ k' ∈ (pins.update (indirectPins lib store pins healthy)).keys, ∀ c,
        pinRoot lib k = .ok c → pinRoot lib k' = .ok c → k = k') ↔
    (∀ k ∈ pins.keys, ∀ k' ∈ pins.keys, ∀ c, pinRoot lib k = .ok c → pinRoot lib k' = .ok c → k = k') ∧
      ∀ k ∈ pins.keys, ∀ c, pinRoot lib k = .ok c → ∀ pin, RecursivePin pins pin →
        ∀ root r, pinRoot lib pin.1 = .ok root → Comes lib store healthy pin root r → r ≠ root →
          Denotes lib r c → display lib c = .ok k := by
  simp only [mem_listed hlib]
  constructor
  · intro h
    refine ⟨fun k hk k' hk' => h k (.inl hk) k' (.inl hk'), ?_⟩
    intro k hk c hc pin hpin root r hroot hr hne hrc
    obtain ⟨s, hs, hsc, hcs⟩ := Denotes.display hlib hrc
    have hbelow : Below lib store pins healthy s :=
      ⟨pin, hpin.1, hpin.2, root, r, hroot, mem_markWalk.mpr hr, hne, hs⟩
    rw [hcs, h k (.inl hk) s (.inr hbelow) c hc hsc]
  · rintro ⟨hsingle, hcanonical⟩
    have hmixed (k s : String) (hk : k ∈ pins.keys) (hs : Below lib store pins healthy s) (c : Bytes)
        (hkc : pinRoot lib k = .ok c) (hsc : pinRoot lib s = .ok c) : k = s := by
      have hcs := Below.display hlib hs hsc
      obtain ⟨pin, hpin, hrec, root, r, hroot, hr, hne, hrs⟩ := hs
      have hck := hcanonical k hk c hkc pin ⟨hpin, hrec⟩ root r hroot (mem_markWalk.mp hr) hne ⟨s, hrs, hsc⟩
      exact Except.ok.inj (hck.symm.trans hcs)
    rintro k (hk | hk) k' (hk' | hk') c hc hc'
    · exact hsingle k hk k' hk' c hc hc'
    · exact hmixed k k' hk hk' c hc hc'
    · exact (hmixed k' k hk' hk c hc' hc).symm
    · exact Except.ok.inj ((Below.display hlib hk hc).symm.trans (Below.display hlib hk' hc'))

theorem indirect_reported {c : Bytes} :
    (∃ s, (pins.update (indirectPins lib store pins healthy)).get? s = some (.ofType "indirect") ∧
      pinRoot lib s = .ok c) ↔
    ∃ s, ((s ∉ pins.keys ∧ Below lib store pins healthy s) ∨
      pins.get? s = some (.ofType "indirect")) ∧ pinRoot lib s = .ok c := by
  refine exists_congr fun s => and_congr_left fun _ => ?_
  rw [get?_listed hlib]
  split_ifs with h
  · simp [h]
  · simp [h]

theorem below_of_comes {c : Bytes} (hfree : ∀ k ∈ pins.keys, pinRoot lib k ≠ .ok c)
    {pin : String × PinValue} (hpin : RecursivePin pins pin) {root r : Bytes}
    (hroot : pinRoot lib pin.1 = .ok root) (hr : Comes lib store healthy pin root r)
    (hrc : Denotes lib r c) :
    ∃ s, (s ∉ pins.keys ∧ Below lib store pins healthy s) ∧ pinRoot lib s = .ok c := by
  obtain ⟨s, hs, hsc⟩ := hrc
  have hne : r ≠ root := by
    rintro rfl
    obtain ⟨t, ht, htr⟩ := hlib.parsed _ _ hroot
    obtain rfl : t = s := Except.ok.inj (ht.symm.trans hs)
    obtain rfl : r = c := Except.ok.inj (htr.symm.trans hsc)
    exact hfree pin.1 (List.mem_map_of_mem hpin.1) hroot
  exact ⟨s, ⟨fun hk => hfree s hk hsc,
    pin, hpin.1, hpin.2, root, r, hroot, mem_markWalk.mpr hr, hne, hs⟩, hsc⟩

theorem indirect_iff
    (hsingle : ∀ k ∈ pins.keys, ∀ k' ∈ pins.keys, ∀ c, pinRoot lib k = .ok c → pinRoot lib k' = .ok c →
      k = k')
    (hcanonical : ∀ k ∈ pins.keys, ∀ s, Below lib store pins healthy s → ∀ c, pinRoot lib k = .ok c →
      pinRoot lib s = .ok c → k = s) :
    (∀ c, (∃ s, (pins.update (indirectPins lib store pins healthy)).get? s = some (.ofType "indirect") ∧
      pinRoot lib s = .ok c) ↔ Indirect lib store pins c) ↔
    (∀ c, FromRecursive lib store pins c → (∀ k ∈ pins.keys, pinRoot lib k ≠ .ok c) →
      ∃ pin, RecursivePin pins pin ∧ ∃ root r, pinRoot lib pin.1 = .ok root ∧
        Comes lib store healthy pin root r ∧ Denotes lib r c) ∧
    ∀ pin ∈ pins.entries, ¬Typed pin.2 → ∀ c, pinRoot lib pin.1 = .ok c →
      (pin.2.isType "indirect" = true ↔ FromRecursive lib store pins c) := by
  simp only [indirect_reported hlib]
  constructor
  · intro h
    constructor
    · intro c hfrom hfree
      obtain ⟨s, hs | hs, hsc⟩ := (h c).mpr ⟨hfrom, fun pin hpin _ => hfree _ (List.mem_map_of_mem hpin)⟩
      · obtain ⟨-, pin, hpin, hrec, root, r, hroot, hr, -, hrs⟩ := hs
        exact ⟨pin, ⟨hpin, hrec⟩, root, r, hroot, mem_markWalk.mp hr, s, hrs, hsc⟩
      · exact absurd hsc (hfree s (Dict.mem_keys.mpr ⟨_, hs⟩))
    · intro pin hpin hstray c hc
      have hkey : pin.1 ∈ pins.keys := List.mem_map_of_mem hpin
      constructor
      · intro hind
        have hget := Dict.get?_eq_some.mpr hpin
        rw [PinValue.isType_iff.mp hind] at hget
        exact ((h c).mp ⟨pin.1, .inr hget, hc⟩).1
      · intro hfrom
        have hind : Indirect lib store pins c := by
          refine ⟨hfrom, fun pin' hpin' htyped hc' => hstray ?_⟩
          have he := hsingle pin'.1 (List.mem_map_of_mem hpin') pin.1 hkey c hc' hc
          have hget := Dict.get?_eq_some.mpr hpin
          rwa [← value_of_get? hget hpin' he]
        obtain ⟨s, hs | hs, hsc⟩ := (h c).mpr hind
        · exact absurd (hcanonical pin.1 hkey s hs.2 c hc hsc ▸ hkey) hs.1
        · have he := hsingle pin.1 hkey s (Dict.mem_keys.mpr ⟨_, hs⟩) c hc hsc
          exact PinValue.isType_iff.mpr (value_of_get? hs hpin he)
  · rintro ⟨hcomes, hstray⟩ c
    constructor
    · rintro ⟨s, hs | hs, hsc⟩
      · refine ⟨Below.fromRecursive hs.2 hsc, fun pin hpin _ hc => hs.1 ?_⟩
        have hkey : pin.1 ∈ pins.keys := List.mem_map_of_mem hpin
        exact hcanonical pin.1 hkey s hs.2 c hc hsc ▸ hkey
      · have hnot : ¬Typed (.ofType "indirect") := by
          simp [Typed, PinValue.isType, PinValue.ofType, Json.isStr]
        have hpin := Dict.get?_eq_some.mp hs
        refine ⟨(hstray _ hpin hnot c hsc).mp (by simp [PinValue.isType_iff]), fun pin hpin' htyped hc => ?_⟩
        have he := hsingle pin.1 (List.mem_map_of_mem hpin') s (List.mem_map_of_mem hpin) c hc hsc
        rw [value_of_get? hs hpin' he] at htyped
        exact hnot htyped
    · rintro ⟨hfrom, huntyped⟩
      by_cases hfree : ∀ k ∈ pins.keys, pinRoot lib k ≠ .ok c
      · obtain ⟨pin, hpin, root, r, hroot, hr, hrc⟩ := hcomes c hfrom hfree
        obtain ⟨s, hs, hsc⟩ := below_of_comes hlib hfree hpin hroot hr hrc
        exact ⟨s, .inl hs, hsc⟩
      · push Not at hfree
        obtain ⟨k, hk, hc⟩ := hfree
        obtain ⟨pin, hpin, rfl⟩ := List.mem_map.mp hk
        have hind := (hstray pin hpin (fun ht => huntyped pin hpin ht hc) c hc).mpr hfrom
        have hget := Dict.get?_eq_some.mpr hpin
        rw [PinValue.isType_iff.mp hind] at hget
        exact ⟨pin.1, .inr hget, hc⟩

end PinListing

open PinListing

theorem listPins_agrees_iff (lib : DagLib) (hlib : StableDisplay lib) (store : Store) (pins : PinMap) :
    ∃ listed, listPins lib store pins healthy "all" = .ok listed ∧
      (Agrees lib store pins listed (reachableCids lib store pins healthy) ↔ Lists lib store pins) := by
  refine ⟨pins.update (indirectPins lib store pins healthy), by simp [listPins], ?_⟩
  constructor
  · intro h
    obtain ⟨hsingle, hcanonical⟩ := (unique_iff hlib).mp h.unique
    have hmixed : ∀ k ∈ pins.keys, ∀ s, Below lib store pins healthy s → ∀ c, pinRoot lib k = .ok c →
        pinRoot lib s = .ok c → k = s := by
      intro k hk s hs
      exact h.unique k ((mem_listed hlib).mpr (.inl hk)) s ((mem_listed hlib).mpr (.inr hs))
    obtain ⟨hcomes, hstray⟩ := (indirect_iff hlib hsingle hmixed).mp h.indirect
    exact ⟨hsingle, hcanonical, hcomes, hstray⟩
  · intro h
    have hunique := (unique_iff hlib).mpr ⟨h.single, h.canonical⟩
    have hmixed : ∀ k ∈ pins.keys, ∀ s, Below lib store pins healthy s → ∀ c, pinRoot lib k = .ok c →
        pinRoot lib s = .ok c → k = s := by
      intro k hk s hs
      exact hunique k ((mem_listed hlib).mpr (.inl hk)) s ((mem_listed hlib).mpr (.inr hs))
    exact ⟨listed_denotes hlib, hunique, (indirect_iff hlib h.single hmixed).mpr ⟨h.comes, h.stray⟩⟩

def spellingLib : DagLib :=
  .ofTable [.rawA, .linkToA, .rawAHex] [] []
    [(KnownCid.linkToAData, .cborTag 42 (.bytes (0 :: KnownCid.rawA.bytes)))]

theorem spellings_rows {row : KnownCid} (h : row ∈ [KnownCid.rawA, .linkToA, .rawAHex]) :
    row = .rawA ∨ row = .linkToA ∨ row = .rawAHex := by
  simpa using h

theorem spellingLib_stable : StableDisplay spellingLib where
  parsed k c h := by
    obtain ⟨row, hrow, rfl⟩ := map_ok.mp h
    rcases spellings_rows (ofTable_parseCid hrow).1 with rfl | rfl | rfl
    · exact ⟨KnownCid.rawA.str, rfl, rfl⟩
    · exact ⟨KnownCid.linkToA.str, rfl, rfl⟩
    · exact ⟨KnownCid.rawA.str, rfl, rfl⟩
  displayed c s h := by
    -- the bytes of `rawAHex` are those of `rawA`, whose row is found first
    have hs : KnownCid.rawA.str = s ∨ KnownCid.linkToA.str = s := by
      obtain ⟨row, hrow, -⟩ := map_ok.mp h
      obtain ⟨hmem, rfl⟩ := ofTable_parseCidBytes hrow
      rcases spellings_rows hmem with rfl | rfl | rfl
      · exact .inl (Except.ok.inj ((show _ = _ from rfl).trans h))
      · exact .inr (Except.ok.inj ((show _ = _ from rfl).trans h))
      · exact .inl (Except.ok.inj ((show _ = _ from rfl).trans h))
    rcases hs with rfl | rfl
    · exact ⟨KnownCid.rawA.bytes, rfl, rfl⟩
    · exact ⟨KnownCid.linkToA.bytes, rfl, rfl⟩

theorem linkPins_lists : Lists spellingLib linkStore linkPins where
  single k hk k' hk' c _ _ := by
    rw [List.mem_singleton.mp (show k ∈ [KnownCid.linkToA.str] from hk),
      List.mem_singleton.mp (show k' ∈ [KnownCid.linkToA.str] from hk')]
  canonical k hk c hc pin _ root r _ _ _ _ := by
    obtain rfl := List.mem_singleton.mp (show k ∈ [KnownCid.linkToA.str] from hk)
    obtain rfl : KnownCid.linkToA.bytes = c := Except.ok.inj ((show _ = _ from rfl).trans hc)
    rfl
  comes c hfrom _ := by
    obtain ⟨pin, hpin, r, ⟨root, hroot, hreach⟩, hrc⟩ := hfrom
    refine ⟨pin, hpin, root, r, hroot, ?_, hrc⟩
    rw [← mem_walkOrder] at hreach
    obtain rfl := List.mem_singleton.mp hpin.1
    obtain rfl : KnownCid.linkToA.bytes = root := Except.ok.inj ((show _ = _ from rfl).trans hroot)
    have hwalk : walkOrder spellingLib linkStore (KnownCid.linkToA.str, .ofType "recursive")
        KnownCid.linkToA.bytes = [KnownCid.linkToA.bytes, KnownCid.rawA.bytes] := by decide
    rw [hwalk] at hreach
    rcases List.mem_pair.mp hreach with rfl | rfl
    · exact ⟨[], _, hwalk, by simp⟩
    · refine ⟨[KnownCid.linkToA.bytes], _, hwalk, ?_⟩
      rintro d hd ⟨e, he⟩
      obtain rfl := List.mem_singleton.mp hd
      contradiction
  stray pin hpin hnot := by
    obtain rfl := List.mem_singleton.mp hpin
    exact absurd (.inr (by decide)) hnot

theorem listPins_agrees_link : ∃ listed, listPins spellingLib linkStore linkPins healthy "all" = .ok listed ∧
    Agrees spellingLib linkStore linkPins listed (reachableCids spellingLib linkStore linkPins healthy) := by
  obtain ⟨listed, hlisted, hiff⟩ := listPins_agrees_iff spellingLib spellingLib_stable linkStore linkPins
  exact ⟨listed, hlisted, hiff.mpr linkPins_lists⟩

/-- The child of a recursive pin has a direct pin of its own, under its base16 string. -/
def hexPins : PinMap := linkPins.set KnownCid.rawAHex.str (.ofType "direct")

theorem listPins_agrees_fails : ¬∀ (lib : DagLib) (store : Store) (pins listed : PinMap), StableDisplay lib →
    listPins lib store pins healthy "all" = .ok listed →
    Agrees lib store pins listed (reachableCids lib store pins healthy) := by
  intro hall
  have hagrees := hall spellingLib linkStore hexPins _ spellingLib_stable rfl
  have hsame := hagrees.unique KnownCid.rawAHex.str (by decide) KnownCid.rawA.str (by decide)
    KnownCid.rawA.bytes rfl rfl
  exact absurd hsame (by decide)

end IpfsLite
