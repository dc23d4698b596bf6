import IpfsLite.DagWalk
import IpfsLite.Gc

namespace IpfsLite.Gc

open Worklist

variable {lib : DagLib} {store : Store} {pins : PinMap} {reads : Reads}

def linksOf (lib : DagLib) (store : Store) (recursive : Bool) (cid : Bytes) : List Bytes :=
  if recursive then
    match store.get? cid with
    | none => []
    | some data => (blockLinks lib false cid data).toOption.getD []
  else []

def Protects (lib : DagLib) (store : Store) (pin : String × PinValue) (cid : Bytes) : Prop :=
  ∃ root, pinRoot lib pin.1 = .ok root ∧
    Reach (ε := PyError) (fun c => .ok (linksOf lib store (pin.2.isType "recursive") c)) root cid

def Protected (lib : DagLib) (store : Store) (pins : PinMap) (cid : Bytes) : Prop :=
  ∃ pin ∈ pins.entries, Protects lib store pin cid

def walkOrder (lib : DagLib) (store : Store) (pin : String × PinValue) (root : Bytes) : List Bytes :=
  (run (ε := PyError) (fun c => .ok (linksOf lib store (pin.2.isType "recursive") c))
    (walkBound lib false store) (.start root)).1

def Stops (lib : DagLib) (store : Store) (reads : Reads) (pin : String × PinValue) (cid : Bytes) : Prop :=
  ∃ e, markVisit lib store reads pin cid = .error e

/-- The walk of the pin comes to a CID that is displayed like this one before it stops. -/
def Reached (lib : DagLib) (store : Store) (reads : Reads) (pin : String × PinValue) (cid : Bytes) :
    Prop :=
  ∃ root r before after, pinRoot lib pin.1 = .ok root ∧
    walkOrder lib store pin root = before ++ r :: after ∧
    (∀ d ∈ before, ¬Stops lib store reads pin d) ∧ ∃ s, display lib r = .ok s ∧ display lib cid = .ok s

theorem getBlock_ok {pin : String} {c : Bytes} {data : Option Bytes}
    (h : getBlock store reads pin c = .ok data) : data = store.get? c := by
  simp only [getBlock] at h
  split at h
  · contradiction
  · exact (Except.ok.inj h).symm

theorem markVisit_links {pin : String × PinValue} {c : Bytes} {cs : List Bytes}
    (h : markVisit lib store reads pin c = .ok cs) :
    cs = linksOf lib store (pin.2.isType "recursive") c := by
  obtain ⟨s, -, h⟩ := bind_ok.mp h
  simp only [expand] at h
  simp only [linksOf]
  split_ifs at h ⊢ with hr
  · obtain ⟨data, hdata, h⟩ := bind_ok.mp h
    rw [← getBlock_ok hdata]
    cases data with
    | none => exact (Except.ok.inj h).symm
    | some data =>
      simp only [blockOrMissing] at h
      simp [h, Except.toOption]
  · exact (Except.ok.inj h).symm

theorem markWalk_eq (pin : String × PinValue) (root : Bytes) : markWalk lib store reads pin root =
    takeThrough (raises (markVisit lib store reads pin)) (walkOrder lib store pin root) :=
  run_truncated (fun _ _ => markVisit_links) _ _

theorem linksOf_stored {recursive : Bool} {c d : Bytes} (h : d ∈ linksOf lib store recursive c) :
    d ∈ storedLinks lib false store := by
  simp only [linksOf] at h
  split_ifs at h
  · cases hs : store.get? c with
    | none => simp [hs] at h
    | some data =>
      simp only [hs] at h
      exact List.mem_flatMap.mpr ⟨(c, data), Dict.get?_eq_some.mp hs, h⟩
  · simp at h

theorem markVisit_stored {pin : String × PinValue} {c : Bytes} {cs : List Bytes}
    (h : markVisit lib store reads pin c = .ok cs) : ∀ d ∈ cs, d ∈ storedLinks lib false store := by
  intro d hd
  rw [markVisit_links h] at hd
  exact linksOf_stored hd

theorem mem_walkOrder {pin : String × PinValue} {root c : Bytes} :
    c ∈ walkOrder lib store pin root ↔
      Reach (ε := PyError) (fun c => .ok (linksOf lib store (pin.2.isType "recursive") c)) root c := by
  have hends := run_ends (ε := PyError)
    (fun c => .ok (linksOf lib store (pin.2.isType "recursive") c)) root (walkBound lib false store)
  constructor
  · exact hends.sound c
  · intro hc
    have hlinks (c : Bytes) (cs : List Bytes)
        (h : Except.ok (ε := PyError) (linksOf lib store (pin.2.isType "recursive") c) = .ok cs) :
        ∀ d ∈ cs, d ∈ storedLinks lib false store := by
      intro d hd
      rw [← Except.ok.inj h] at hd
      exact linksOf_stored hd
    have hfed := walk_fed root hlinks
    refine hends.complete ?_ c hc
    cases ho : (run (ε := PyError) (fun c => .ok (linksOf lib store (pin.2.isType "recursive") c))
      (walkBound lib false store) (.start root)).2 with
    | finished => rfl
    | starved => exact absurd ho hfed
    | raised e =>
      obtain ⟨d, -, hd⟩ := hends.raised e ho
      contradiction

def Comes (lib : DagLib) (store : Store) (reads : Reads) (pin : String × PinValue) (root cid : Bytes) :
    Prop :=
  ∃ before after, walkOrder lib store pin root = before ++ cid :: after ∧
    ∀ d ∈ before, ¬Stops lib store reads pin d

theorem mem_markWalk {pin : String × PinValue} {root c : Bytes} :
    c ∈ markWalk lib store reads pin root ↔ Comes lib store reads pin root c := by
  have hstops (d : Bytes) :
      raises (markVisit lib store reads pin) d = false ↔ ¬Stops lib store reads pin d := by
    simp only [raises, Stops]
    split <;> simp_all
  simp only [markWalk_eq, mem_takeThrough, hstops, Comes]

theorem mem_markPin {pin : String × PinValue} {s : String} : s ∈ markPin lib store reads pin ↔
    ∃ root r, pinRoot lib pin.1 = .ok root ∧ r ∈ markWalk lib store reads pin root ∧
      display lib r = .ok s := by
  unfold markPin
  cases pinRoot lib pin.1 with
  | error e => simp
  | ok root =>
    simp only [List.mem_filterMap, Except.ok.injEq]
    constructor
    · rintro ⟨r, hr, hs⟩
      refine ⟨root, r, rfl, hr, ?_⟩
      cases hd : display lib r with
      | error e => simp [hd, Except.toOption] at hs
      | ok t => simpa [hd, Except.toOption] using hs
    · rintro ⟨_, r, rfl, hr, hs⟩
      exact ⟨r, hr, by simp [hs, Except.toOption]⟩

theorem mem_reachableCids_walk {s : String} : s ∈ reachableCids lib store pins reads ↔
    ∃ pin ∈ pins.entries, ∃ root r, pinRoot lib pin.1 = .ok root ∧ r ∈ markWalk lib store reads pin root ∧
      display lib r = .ok s := by
  simp only [reachableCids, List.mem_dedup, List.mem_flatMap, mem_markPin]

theorem mem_reachableCids {s : String} : s ∈ reachableCids lib store pins reads ↔
    ∃ pin ∈ pins.entries, ∃ root r before after, pinRoot lib pin.1 = .ok root ∧
      walkOrder lib store pin root = before ++ r :: after ∧
      (∀ d ∈ before, ¬Stops lib store reads pin d) ∧ display lib r = .ok s := by
  rw [mem_reachableCids_walk]
  refine exists_congr fun pin => and_congr_right fun _ => ?_
  constructor
  · rintro ⟨root, r, hroot, hr, hs⟩
    obtain ⟨before, after, hw, hb⟩ := mem_markWalk.mp hr
    exact ⟨root, r, before, after, hroot, hw, hb, hs⟩
  · rintro ⟨root, r, before, after, hroot, hw, hb, hs⟩
    exact ⟨root, r, hroot, mem_markWalk.mpr ⟨before, after, hw, hb⟩, hs⟩

def RoundTrips (lib : DagLib) (store : Store) : Prop :=
  ∀ c ∈ store.keys, ∃ s, display lib c = .ok s ∧ pinRoot lib s = .ok c

theorem RoundTrips.mapM_display (h : RoundTrips lib store) : ∃ ss, store.keys.mapM (display lib) = .ok ss ∧
    ∀ s, s ∈ ss ↔ ∃ c ∈ store.keys, display lib c = .ok s := by
  have key (cs : List Bytes) (hcs : ∀ c ∈ cs, ∃ s, display lib c = .ok s) :
      ∃ ss, cs.mapM (display lib) = .ok ss ∧ ∀ s, s ∈ ss ↔ ∃ c ∈ cs, display lib c = .ok s := by
    induction cs with
    | nil => exact ⟨[], rfl, by simp⟩
    | cons c cs ih =>
      obtain ⟨s, hs⟩ := hcs c (by simp)
      obtain ⟨ss, hss, hmem⟩ := ih fun d hd => hcs d (by simp [hd])
      refine ⟨s :: ss, by simp [List.mapM_cons, hs, hss, bind, Except.bind, pure, Except.pure], ?_⟩
      intro t
      simp [hmem, hs, eq_comm]
  exact key store.keys fun c hc => (h c hc).imp fun s hs => hs.1

theorem deleteAll_keys {ss : List String} {store : Store}
    (h : ∀ s ∈ ss, ∃ c, pinRoot lib s = .ok c) :
    (deleteAll lib ss store).2 = .ok () ∧ ∀ c, c ∈ (deleteAll lib ss store).1.keys ↔
      c ∈ store.keys ∧ ∀ s ∈ ss, pinRoot lib s ≠ .ok c := by
  induction ss generalizing store with
  | nil => simp [deleteAll]
  | cons s ss ih =>
    obtain ⟨d, hd⟩ := h s (by simp)
    have hss : ∀ t ∈ ss, ∃ c, pinRoot lib t = .ok c := fun t ht => h t (by simp [ht])
    obtain ⟨hok, hkeys⟩ : _ ∧ ∀ c, c ∈ (deleteAll lib ss (store.erase d)).1.keys ↔ _ := ih hss
    simp only [deleteAll, hd]
    refine ⟨hok, fun c => ?_⟩
    rw [hkeys, Dict.mem_keys_erase]
    simp only [List.mem_cons, forall_eq_or_imp, hd, ne_eq, Except.ok.injEq]
    tauto

theorem mem_gc (h : RoundTrips lib store) {c : Bytes} {s : String} (hs : display lib c = .ok s) :
    c ∈ (gc lib store pins reads).1.keys ↔
      c ∈ store.keys ∧ s ∈ reachableCids lib store pins reads := by
  obtain ⟨keys, hkeys, hmem⟩ := h.mapM_display
  simp only [gc, hkeys]
  have hparse : ∀ t ∈ keys.dedup.filter (· ∉ reachableCids lib store pins reads),
      ∃ d, pinRoot lib t = .ok d := by
    intro t ht
    obtain ⟨d, hd, hdt⟩ := (hmem t).mp (by simpa using (List.mem_filter.mp ht).1)
    obtain ⟨t', ht', hr⟩ := h d hd
    obtain rfl : t = t' := by simpa [hdt] using ht'
    exact ⟨d, hr⟩
  rw [(deleteAll_keys hparse).2]
  refine and_congr_right fun hc => ?_
  obtain ⟨s', hs', hr⟩ := h c hc
  obtain rfl : s = s' := by simpa [hs] using hs'
  constructor
  · intro hall
    by_contra hn
    refine hall s ?_ hr
    simpa [hn] using (hmem s).mpr ⟨c, hc, hs⟩
  · intro hin t ht hrt
    obtain ⟨htk, htn⟩ := List.mem_filter.mp ht
    obtain ⟨d, hd, hdt⟩ := (hmem t).mp (by simpa using htk)
    obtain ⟨t', ht', hr'⟩ := h d hd
    obtain rfl : t = t' := by simpa [hdt] using ht'
    obtain rfl : d = c := by simpa [hr'] using hrt
    obtain rfl : s = t := by simpa [hs] using hdt
    simp [hin] at htn

theorem deleteAll_get? {ss : List String} {c data : Bytes}
    (h : (deleteAll lib ss store).1.get? c = some data) : store.get? c = some data := by
  induction ss generalizing store with
  | nil => exact h
  | cons s ss ih =>
    simp only [deleteAll] at h
    cases hs : pinRoot lib s with
    | error e => simpa [hs] using h
    | ok d =>
      simp only [hs] at h
      have hd := ih h
      rw [Dict.get?_erase] at hd
      split_ifs at hd
      exact hd

theorem gc_get? {c : Bytes} (h : c ∈ (gc lib store pins reads).1.keys) :
    (gc lib store pins reads).1.get? c = store.get? c := by
  obtain ⟨data, hdata⟩ := Dict.mem_keys.mp h
  rw [hdata]
  simp only [gc] at hdata
  cases hl : store.keys.mapM (display lib) with
  | error e => simpa [hl] using hdata.symm
  | ok keys =>
    simp only [hl] at hdata
    exact (deleteAll_get? hdata).symm

theorem mem_reachableCids_iff_reached {c : Bytes} {s : String} (hs : display lib c = .ok s) :
    s ∈ reachableCids lib store pins reads ↔ ∃ pin ∈ pins.entries, Reached lib store reads pin c := by
  rw [mem_reachableCids]
  refine exists_congr fun pin => and_congr_right fun _ => ?_
  simp only [Reached, hs, Except.ok.injEq]
  constructor
  · rintro ⟨root, r, before, after, hroot, hw, hb, hr⟩
    exact ⟨root, r, before, after, hroot, hw, hb, s, hr, rfl⟩
  · rintro ⟨root, r, before, after, hroot, hw, hb, _, hr, rfl⟩
    exact ⟨root, r, before, after, hroot, hw, hb, hr⟩

theorem gc_keeps_protected_iff (lib : DagLib) (store : Store) (pins : PinMap) (reads : Reads)
    (h : RoundTrips lib store) :
    (∀ c ∈ store.keys, Protected lib store pins c → c ∈ (gc lib store pins reads).1.keys) ↔
      ∀ c ∈ store.keys, Protected lib store pins c →
        ∃ pin ∈ pins.entries, Reached lib store reads pin c := by
  refine forall₂_congr fun c hc => imp_congr_right fun _ => ?_
  obtain ⟨s, hs, -⟩ := h c hc
  rw [mem_gc h hs, ← mem_reachableCids_iff_reached hs]
  exact and_iff_right hc

def linkLib : DagLib :=
  .ofTable [.rawA, .linkToA] [] []
    [(KnownCid.linkToAData, .cborTag 42 (.bytes (0 :: KnownCid.rawA.bytes)))]

def linkStore : Store :=
  (Dict.empty.set KnownCid.linkToA.bytes KnownCid.linkToAData).set KnownCid.rawA.bytes [97]

def linkPins : PinMap := Dict.empty.set KnownCid.linkToA.str (.ofType "recursive")

theorem linkStore_keys {c : Bytes} (hc : c ∈ linkStore.keys) :
    c = KnownCid.linkToA.bytes ∨ c = KnownCid.rawA.bytes := List.mem_pair.mp hc

theorem linkStore_roundTrips : RoundTrips linkLib linkStore := by
  intro c hc
  rcases linkStore_keys hc with rfl | rfl
  · exact ⟨KnownCid.linkToA.str, rfl, rfl⟩
  · exact ⟨KnownCid.rawA.str, rfl, rfl⟩

theorem linkStore_protected : Protected linkLib linkStore linkPins KnownCid.rawA.bytes :=
  ⟨(KnownCid.linkToA.str, .ofType "recursive"), List.mem_singleton.mpr rfl, KnownCid.linkToA.bytes, rfl,
    .single ⟨_, rfl, by decide⟩⟩

theorem linkStore_walk : walkOrder linkLib linkStore (KnownCid.linkToA.str, .ofType "recursive")
    KnownCid.linkToA.bytes = [KnownCid.linkToA.bytes, KnownCid.rawA.bytes] := by decide

theorem linkStore_reached {c : Bytes} (hc : c ∈ linkStore.keys) :
    ∃ pin ∈ linkPins.entries, Reached linkLib linkStore (fun _ _ => none) pin c := by
  refine ⟨(KnownCid.linkToA.str, .ofType "recursive"), List.mem_singleton.mpr rfl, ?_⟩
  rcases linkStore_keys hc with rfl | rfl
  · exact ⟨_, _, [], [KnownCid.rawA.bytes], rfl, linkStore_walk, by simp, _, rfl, rfl⟩
  · refine ⟨_, _, [KnownCid.linkToA.bytes], [], rfl, linkStore_walk, ?_, _, rfl, rfl⟩
    rintro d hd ⟨e, he⟩
    obtain rfl := List.mem_singleton.mp hd
    contradiction

theorem gc_keeps_protected_healthy :
    KnownCid.rawA.bytes ∈ (gc linkLib linkStore linkPins (fun _ _ => none)).1.keys := by
  refine (gc_keeps_protected_iff _ _ _ _ linkStore_roundTrips).mpr (fun c hc _ => ?_) _ (by decide)
    linkStore_protected
  exact linkStore_reached hc

def rootUnreadable : Reads := fun _ _ => some ⟨.osError, "Input/output error"⟩

theorem gc_keeps_protected_fails : ¬∀ reads : Reads, ∀ c ∈ linkStore.keys,
    Protected linkLib linkStore linkPins c → c ∈ (gc linkLib linkStore linkPins reads).1.keys := by
  intro hall
  exact absurd (hall rootUnreadable _ (by decide) linkStore_protected) (by decide)

end IpfsLite.Gc
