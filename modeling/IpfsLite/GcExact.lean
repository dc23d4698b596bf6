import IpfsLite.GcMarking

namespace IpfsLite.Gc

variable {lib : DagLib} {store : Store} {pins : PinMap} {reads : Reads} {c : Bytes}

def label (lib : DagLib) (c : Bytes) : String := (display lib c).toOption.getD ""

theorem RoundTrips.label (h : RoundTrips lib store) (hc : c ∈ store.keys) :
    display lib c = .ok (Gc.label lib c) ∧ pinRoot lib (Gc.label lib c) = .ok c := by
  obtain ⟨s, hs, hr⟩ := h c hc
  have hlabel : Gc.label lib c = s := by simp [Gc.label, hs, Except.toOption]
  rw [hlabel]
  exact ⟨hs, hr⟩

theorem RoundTrips.label_inj (h : RoundTrips lib store) {d : Bytes} (hc : c ∈ store.keys)
    (hd : d ∈ store.keys) (he : Gc.label lib c = Gc.label lib d) : c = d := by
  have hroot := (h.label hc).2
  rw [he, (h.label hd).2] at hroot
  exact (Except.ok.inj hroot).symm

theorem RoundTrips.mapM_label (h : RoundTrips lib store) :
    store.keys.mapM (display lib) = .ok (store.keys.map (Gc.label lib)) := by
  have key (cs : List Bytes) (hcs : ∀ c ∈ cs, c ∈ store.keys) :
      cs.mapM (display lib) = .ok (cs.map (Gc.label lib)) := by
    induction cs with
    | nil => rfl
    | cons c cs ih =>
      have hrest := ih fun d hd => hcs d (List.mem_cons_of_mem c hd)
      have hc := (h.label (hcs c (by simp))).1
      simp [List.mapM_cons, hc, hrest, bind, Except.bind, pure, Except.pure]
  exact key store.keys fun c hc => hc

theorem RoundTrips.nodup_labels (h : RoundTrips lib store) : (store.keys.map (Gc.label lib)).Nodup := by
  apply List.Nodup.map_on _ store.nodup
  exact fun c hc d hd => h.label_inj hc hd

theorem mem_gc_label (h : RoundTrips lib store) : c ∈ (gc lib store pins reads).1.keys ↔
    c ∈ store.keys ∧ label lib c ∈ reachableCids lib store pins reads := by
  constructor
  · intro hc
    obtain ⟨data, hdata⟩ := Dict.mem_keys.mp hc
    have hkey : c ∈ store.keys := Dict.mem_keys.mpr ⟨data, (gc_get? hc).symm.trans hdata⟩
    exact (mem_gc h (h.label hkey).1).mp hc
  · exact fun hc => (mem_gc h (h.label hc.1).1).mpr hc

theorem gc_result (h : RoundTrips lib store) : (gc lib store pins reads).2 =
    .ok ⟨(store.keys.filter (label lib · ∉ reachableCids lib store pins reads)).length,
      (reachableCids lib store pins reads).length⟩ := by
  have hparse : ∀ t ∈ (store.keys.map (label lib)).filter (· ∉ reachableCids lib store pins reads),
      ∃ d, pinRoot lib t = .ok d := by
    intro t ht
    obtain ⟨c, hc, rfl⟩ := List.mem_map.mp (List.mem_filter.mp ht).1
    exact ⟨c, (h.label hc).2⟩
  simp only [gc, h.mapM_label, h.nodup_labels.dedup, (deleteAll_keys hparse).1, Except.map]
  rw [List.filter_map, List.length_map]
  rfl

theorem length_eq_iff_subset {α : Type*} {l m : List α} (hl : l.Nodup) (hm : m.Nodup) (h : l ⊆ m) :
    m.length = l.length ↔ m ⊆ l := by
  constructor
  · intro hlen
    exact ((List.subperm_of_subset hl h).perm_of_length_le hlen.le).symm.subset
  · intro hsub
    exact le_antisymm (List.subperm_of_subset hm hsub).length_le (List.subperm_of_subset hl h).length_le

section Report

variable (h : RoundTrips lib store)

include h

theorem removed_eq : store.keys.filter (· ∉ (gc lib store pins reads).1.keys) =
    store.keys.filter (label lib · ∉ reachableCids lib store pins reads) := by
  apply List.filter_congr
  intro c hc
  simp [mem_gc_label h, hc]

theorem kept_perm : (gc lib store pins reads).1.keys.Perm
    (store.keys.filter (label lib · ∈ reachableCids lib store pins reads)) := by
  apply (List.perm_ext_iff_of_nodup (gc lib store pins reads).1.nodup (store.nodup.filter _)).mpr
  intro c
  refine (mem_gc_label h).trans ?_
  rw [List.mem_filter, decide_eq_true_iff]
  rfl

theorem kept_add_removed : (store.keys.filter (· ∉ (gc lib store pins reads).1.keys)).length +
    (gc lib store pins reads).1.keys.length = store.keys.length := by
  rw [removed_eq h, (kept_perm h).length_eq, Nat.add_comm,
    List.length_eq_length_filter_add (l := store.keys) (label lib · ∈ reachableCids lib store pins reads)]
  simp only [decide_not]

/-- The report counts the strings that were marked; each of them must be the string of a block. -/
theorem marked_eq_kept_iff : (reachableCids lib store pins reads).length =
    (gc lib store pins reads).1.keys.length ↔
      ∀ s ∈ reachableCids lib store pins reads, ∃ c ∈ store.keys, display lib c = .ok s := by
  let kept := store.keys.filter (label lib · ∈ reachableCids lib store pins reads)
  have hnodup : (kept.map (label lib)).Nodup := by
    apply List.Nodup.map_on _ (store.nodup.filter _)
    exact fun c hc d hd => h.label_inj (List.mem_filter.mp hc).1 (List.mem_filter.mp hd).1
  have hmarked : (reachableCids lib store pins reads).Nodup := List.nodup_dedup _
  have hsub : kept.map (label lib) ⊆ reachableCids lib store pins reads := by
    intro s hs
    obtain ⟨c, hc, rfl⟩ := List.mem_map.mp hs
    simpa using (List.mem_filter.mp hc).2
  have hlen : (gc lib store pins reads).1.keys.length = (kept.map (label lib)).length := by
    rw [List.length_map]
    exact (kept_perm h).length_eq
  rw [hlen, length_eq_iff_subset hnodup hmarked hsub]
  refine forall₂_congr fun s hs => ?_
  constructor
  · intro hmem
    obtain ⟨c, hc, rfl⟩ := List.mem_map.mp hmem
    have hkey := (List.mem_filter.mp hc).1
    exact ⟨c, hkey, (h.label hkey).1⟩
  · rintro ⟨c, hc, hcs⟩
    obtain rfl := Except.ok.inj ((h.label hc).1.symm.trans hcs)
    exact List.mem_map.mpr ⟨c, List.mem_filter.mpr ⟨hc, by simpa using hs⟩, rfl⟩

end Report

structure Exact (lib : DagLib) (store : Store) (pins : PinMap) (after : Store)
    (result : Except PyError GCResult) : Prop where
  blocks : ∀ c data, after.get? c = some data ↔ store.get? c = some data ∧ Protected lib store pins c
  report : ∃ r, result = .ok r ∧
    r.reclaimedBlocks = (store.keys.filter (· ∉ after.keys)).length ∧
    r.retainedBlocks = after.keys.length ∧ r.reclaimedBlocks + r.retainedBlocks = store.keys.length

theorem exact_blocks_iff (h : RoundTrips lib store) : (∀ c data, (gc lib store pins reads).1.get? c =
    some data ↔ store.get? c = some data ∧ Protected lib store pins c) ↔
      ∀ c ∈ store.keys, Protected lib store pins c ↔ ∃ pin ∈ pins.entries, Reached lib store reads pin c := by
  have hkept (c : Bytes) (hc : c ∈ store.keys) : c ∈ (gc lib store pins reads).1.keys ↔
      ∃ pin ∈ pins.entries, Reached lib store reads pin c := by
    rw [mem_gc h (h.label hc).1, mem_reachableCids_iff_reached (h.label hc).1]
    exact and_iff_right hc
  constructor
  · intro hget c hc
    obtain ⟨data, hdata⟩ := Dict.mem_keys.mp hc
    rw [← hkept c hc, Dict.mem_keys]
    constructor
    · exact fun hp => ⟨data, (hget c data).mpr ⟨hdata, hp⟩⟩
    · rintro ⟨data', hdata'⟩
      exact ((hget c data').mp hdata').2
  · intro hiff c data
    constructor
    · intro hdata
      have hc := Dict.mem_keys.mpr ⟨data, hdata⟩
      have hstored : store.get? c = some data := (gc_get? hc).symm.trans hdata
      have hkey := Dict.mem_keys.mpr ⟨data, hstored⟩
      exact ⟨hstored, (hiff c hkey).mpr ((hkept c hkey).mp hc)⟩
    · rintro ⟨hdata, hp⟩
      have hkey := Dict.mem_keys.mpr ⟨data, hdata⟩
      rw [gc_get? ((hkept c hkey).mpr ((hiff c hkey).mp hp))]
      exact hdata

theorem exact_report_iff (h : RoundTrips lib store) :
    (∃ r, (gc lib store pins reads).2 = .ok r ∧
      r.reclaimedBlocks = (store.keys.filter (· ∉ (gc lib store pins reads).1.keys)).length ∧
      r.retainedBlocks = (gc lib store pins reads).1.keys.length ∧
      r.reclaimedBlocks + r.retainedBlocks = store.keys.length) ↔
    ∀ s ∈ reachableCids lib store pins reads, ∃ c ∈ store.keys, display lib c = .ok s := by
  rw [← marked_eq_kept_iff h, gc_result h]
  constructor
  · rintro ⟨r, hr, -, hretained, -⟩
    obtain rfl := Except.ok.inj hr
    exact hretained
  · intro hlen
    refine ⟨_, rfl, by rw [removed_eq h], hlen, ?_⟩
    simp only [hlen]
    rw [← removed_eq h]
    exact kept_add_removed h

/-- `Reached` goes by the strings that the marking loop adds, also those of blocks that are not there. -/
theorem gc_exact_iff (lib : DagLib) (store : Store) (pins : PinMap) (h : RoundTrips lib store) :
    Exact lib store pins (gc lib store pins healthy).1 (gc lib store pins healthy).2 ↔
      (∀ c ∈ store.keys,
        Protected lib store pins c ↔ ∃ pin ∈ pins.entries, Reached lib store healthy pin c) ∧
      ∀ pin ∈ pins.entries, ∀ c s, Reached lib store healthy pin c → display lib c = .ok s →
        ∃ d ∈ store.keys, display lib d = .ok s := by
  have hmarked : (∀ s ∈ reachableCids lib store pins healthy, ∃ d ∈ store.keys, display lib d = .ok s) ↔
      ∀ pin ∈ pins.entries, ∀ c s, Reached lib store healthy pin c → display lib c = .ok s →
        ∃ d ∈ store.keys, display lib d = .ok s := by
    constructor
    · intro hall pin hpin c s hreached hs
      exact hall s ((mem_reachableCids_iff_reached hs).mpr ⟨pin, hpin, hreached⟩)
    · intro hall s hs
      obtain ⟨pin, hpin, root, r, before, after, hroot, hwalk, hbefore, hr⟩ := mem_reachableCids.mp hs
      exact hall pin hpin r s ⟨root, r, before, after, hroot, hwalk, hbefore, s, hr, hr⟩ hr
  rw [← exact_blocks_iff h, ← hmarked, ← exact_report_iff h]
  exact ⟨fun he => ⟨he.blocks, he.report⟩, fun he => ⟨he.1, he.2⟩⟩

theorem gc_exact_link : Exact linkLib linkStore linkPins (gc linkLib linkStore linkPins healthy).1
    (gc linkLib linkStore linkPins healthy).2 := by
  refine (gc_exact_iff linkLib linkStore linkPins linkStore_roundTrips).mpr ⟨fun c hc => ?_, ?_⟩
  · refine ⟨fun _ => linkStore_reached hc, fun _ => ?_⟩
    rcases linkStore_keys hc with rfl | rfl
    · exact ⟨_, List.mem_singleton.mpr rfl, _, rfl, .refl⟩
    · exact linkStore_protected
  · rintro pin hpin c s ⟨root, r, before, after, hroot, hw, -, t, hr, ht⟩ hs
    obtain rfl := List.mem_singleton.mp hpin
    obtain rfl : KnownCid.linkToA.bytes = root := Except.ok.inj hroot
    rw [linkStore_walk] at hw
    have hmem : r ∈ linkStore.keys := by
      change r ∈ [KnownCid.linkToA.bytes, KnownCid.rawA.bytes]
      rw [hw]
      simp
    exact ⟨r, hmem, by rw [hr, ← ht, hs]⟩

def partStore : Store := Dict.empty.set KnownCid.linkToA.bytes KnownCid.linkToAData

theorem gc_exact_fails : ¬∀ store : Store, RoundTrips linkLib store →
    Exact linkLib store linkPins (gc linkLib store linkPins healthy).1 (gc linkLib store linkPins healthy).2 := by
  intro hall
  have hround : RoundTrips linkLib partStore := by
    intro c hc
    obtain rfl := List.mem_singleton.mp (show c ∈ [KnownCid.linkToA.bytes] from hc)
    exact ⟨KnownCid.linkToA.str, rfl, rfl⟩
  obtain ⟨r, hr, -, hretained, -⟩ := (hall partStore hround).report
  obtain rfl : (⟨0, 2⟩ : GCResult) = r := Except.ok.inj ((show _ = _ from by decide).trans hr)
  exact absurd hretained (by decide)

end IpfsLite.Gc
