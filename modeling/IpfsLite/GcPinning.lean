import IpfsLite.GcProgress
import IpfsLite.PinDurability

namespace IpfsLite

open Gc Runs

variable {lib : DagLib} {store : Store}

def Pinned (pins : PinMap) (cidStr pinType : String) : Prop :=
  pins.get? cidStr = some (.ofType "recursive") ∨
    pinType = "direct" ∧ pins.get? cidStr = some (.ofType "direct")

namespace World

variable {w : World} {io : PinStore.SaveIo} {cidStr pinType : String}

theorem addPin_returns (h : (w.addPin lib.toCidLib io cidStr pinType).2 = .ok ()) :
    Pinned (w.addPin lib.toCidLib io cidStr pinType).1.store.pins cidStr pinType := by
  simp only [addPin] at h ⊢
  cases hp : lib.parseCid cidStr with
  | error e => simp [hp] at h
  | ok c =>
    simp only [hp] at h ⊢
    by_cases ht : pinType ≠ "direct" ∧ pinType ≠ "recursive"
    · simp [ht] at h
    · have hset (pins : PinMap) : Pinned (pins.set cidStr (.ofType pinType)) cidStr pinType := by
        by_cases hr : pinType = "recursive"
        · exact .inl (by simp [hr])
        · have hd : pinType = "direct" := by tauto
          exact .inr ⟨hd, by simp [hd]⟩
      simp only [if_neg ht] at h ⊢
      cases hg : w.store.pins.get? cidStr with
      | none => exact hset _
      | some existing =>
        simp only [hg] at h ⊢
        split_ifs at h ⊢ with hsame hdown
        · have he : existing = .ofType pinType := PinValue.isType_iff.mp hsame
          by_cases hr : pinType = "recursive"
          · exact .inl (by rw [hg, he, hr])
          · have hd : pinType = "direct" := by tauto
            exact .inr ⟨hd, by rw [hg, he, hd]⟩
        · exact hset _

theorem addPin_pinned {other otherType : String} (h : Pinned w.store.pins cidStr pinType) :
    Pinned (w.addPin lib.toCidLib io other otherType).1.store.pins cidStr pinType := by
  have hspec := addPin_spec lib.toCidLib w io other otherType
  cases hs : (PinCall.addPin other otherType).saves lib.toCidLib w.store.pins with
  | none =>
    rw [hs] at hspec
    rwa [hspec]
  | some pins =>
    obtain ⟨ht, hne, hrec, rfl⟩ := PinCall.saves_addPin hs
    rw [hs] at hspec
    rw [hspec, commit_pins]
    by_cases ho : cidStr = other
    · subst ho
      rcases h with h | ⟨rfl, h⟩
      · exact absurd h hrec
      · rcases ht with rfl | rfl
        · exact absurd h hne
        · exact .inl (by simp)
    · simpa [Pinned, ho] using h

end World

namespace Gc

variable {pin : String × PinValue} {root c : Bytes}

theorem walkOrder_head (lib : DagLib) (store : Store) (pin : String × PinValue) (root : Bytes) :
    ∃ l, walkOrder lib store pin root = root :: l := by
  simp only [walkOrder, walkBound, Nat.add_comm 2, Worklist.run, Worklist.pop_start]
  exact ⟨_, rfl⟩

theorem walkOrder_direct (h : pin.2.isType "recursive" = false) (hc : c ∈ walkOrder lib store pin root) :
    c = root := by
  rw [mem_walkOrder, h] at hc
  cases hc with
  | refl => rfl
  | tail _ he =>
    obtain ⟨cs, hcs, hd⟩ := he
    obtain rfl : [] = cs := by simpa [linksOf] using hcs
    simp at hd

theorem reached_of_pinned {pins : PinMap} {cidStr pinType : String} {reads : Reads}
    (hp : Pinned pins cidStr pinType) (h : Reached lib store reads (cidStr, .ofType pinType) c) :
    ∃ pin ∈ pins.entries, Reached lib store reads pin c := by
  rcases hp with hp | ⟨rfl, hp⟩
  · refine ⟨(cidStr, .ofType "recursive"), Dict.get?_eq_some.mp hp, ?_⟩
    by_cases hr : pinType = "recursive"
    · rwa [hr] at h
    · obtain ⟨root, r, before, after, hroot, hw, -, hs⟩ := h
      have hdirect : (PinValue.ofType pinType).isType "recursive" = false := by
        simpa [PinValue.isType, PinValue.ofType, Json.isStr] using hr
      obtain rfl : r = root := walkOrder_direct hdirect (by rw [hw]; simp)
      obtain ⟨l, hl⟩ := walkOrder_head lib store (cidStr, .ofType "recursive") r
      exact ⟨r, r, [], l, hroot, hl, by simp, hs⟩
  · exact ⟨_, Dict.get?_eq_some.mp hp, h⟩

def Phase.hasCopied : Phase → Bool
  | .marking _ | .sweeping .. => true
  | _ => false

/-- What is to hold of a protected block when a pin is added: if `gc` has yet to copy the pins, its
walk of this pin will come to the block; if it has copied them, the walk of a copied pin does; and
if it has begun to delete, the block is not one of those left to delete. -/
def Covered (lib : DagLib) (p : Phase) (now : Store) (pin : String × PinValue) (c : Bytes) : Prop :=
  match p with
  | .idle | .listing | .copying _ => Reached lib now healthy pin c
  | .marking m => ∃ q ∈ m.copied.entries, Reached lib now healthy q c
  | .sweeping toDelete _ _ => ∀ x, display lib c = .ok x → x ∉ toDelete
  | .returned _ | .raised _ => True

end Gc

namespace Sys

variable {τ : Type*} [DecidableEq τ] {copied : PinMap} {s s' : Sys τ} {e : Event τ}

theorem race_pinned {cidStr pinType : String} (h : Pinned s.world.store.pins cidStr pinType)
    (hstep : RaceStep lib s e s') : Pinned s'.world.store.pins cidStr pinType := by
  obtain ⟨a, hlock⟩ | hmove | ⟨other, otherType, io, -, rfl⟩ := race_cases hstep
  · rwa [(gcLock_frame hlock).2.1]
  · rwa [hmove.frame.2]
  · exact World.addPin_pinned h

theorem pinned_run (hround : RoundTrips lib store) {cidStr pinType : String} {es : List (Event τ)}
    (h : BeforeCopy lib store s.gc s.store) (hp : Pinned s.world.store.pins cidStr pinType)
    (hrun : Run (RaceStep lib) s es s') :
    BeforeCopy lib store s'.gc s'.store ∨
      ∃ copied, Pinned copied cidStr pinType ∧ AfterCopy lib store copied s'.gc s'.store := by
  have hboth := hrun.invariant (P := fun s => Pinned s.world.store.pins cidStr pinType ∧
    (BeforeCopy lib store s.gc s.store ∨
      ∃ copied, Pinned copied cidStr pinType ∧ AfterCopy lib store copied s.gc s.store)) ?_ ⟨hp, .inl h⟩
  · exact hboth.2
  · rintro u e v ⟨hpu, hu⟩ hstep
    refine ⟨race_pinned hpu hstep, ?_⟩
    rcases hu with hu | ⟨copied, hpc, hu⟩
    · exact (beforeCopy_step hround hu hstep).imp_right fun hv => ⟨_, hpu, hv⟩
    · exact .inr ⟨copied, hpc, afterCopy_step hround hu hstep⟩

omit [DecidableEq τ] in
theorem covered_iff (hround : RoundTrips lib store) {pin : String × PinValue} {c : Bytes}
    (h : AfterCopy lib store copied s.gc s.store) (hg : s.gc.hasCopied = true) (hc : c ∈ s.store.keys) :
    Covered lib s.gc s.store pin c ↔ ∃ q ∈ copied.entries, Reached lib store healthy q c := by
  cases hp : s.gc with
  | marking m =>
    rw [hp] at h
    obtain ⟨hs, -, -, rfl, -⟩ := h
    rw [hs]
    exact Iff.rfl
  | sweeping toDelete deleted retained =>
    rw [hp] at h
    have hc' := Sweeps.subset h c hc
    obtain ⟨x, hx, -⟩ := hround c hc'
    have hkept := (Sweeps.kept h c hc' x hx).mp hc
    rw [← mem_reachableCids_iff_reached hx]
    constructor
    · intro hcov
      exact hkept.resolve_right (hcov x hx)
    · intro ht y hy hmem
      obtain rfl : x = y := by simpa [hx] using hy
      exact (Sweeps.doomed h x hmem).1 ht
  | _ => simp [hp, Phase.hasCopied] at hg

theorem covered_beforeCopy {p : Phase} {now : Store} {pin : String × PinValue} {c : Bytes}
    (h : BeforeCopy lib store p now) (hc : Covered lib p now pin c) :
    Reached lib store healthy pin c := by
  obtain ⟨rfl, hp⟩ := h
  cases p with
  | idle | listing | copying => exact hc
  | _ => exact hp.elim

theorem hasCopied_beforeCopy {p : Phase} {now : Store} (h : BeforeCopy lib store p now) :
    p.hasCopied = false := by
  obtain ⟨-, hp⟩ := h
  cases p with
  | marking | sweeping => exact hp.elim
  | _ => rfl

theorem addPin_kept_iff {world : World} {es es' : List (Event τ)} {u : Sys τ} {r : GCResult}
    {cidStr pinType : String} {io : PinStore.SaveIo} (hround : RoundTrips lib store)
    (hbefore : Run (RaceStep lib) (Sys.initial store world) es s)
    (hadd : Step lib s (.addPin cidStr pinType io) u)
    (hok : (s.world.addPin lib.toCidLib io cidStr pinType).2 = .ok ())
    (hafter : Run (RaceStep lib) u es' s') (hr : s'.gc = .returned r) :
    ((∀ c ∈ s.store.keys, Protects lib s.store (cidStr, .ofType pinType) c →
        Covered lib s.gc s.store (cidStr, .ofType pinType) c) →
      ∀ c ∈ u.store.keys, Protects lib u.store (cidStr, .ofType pinType) c → c ∈ s'.store.keys) ∧
    (s.gc.hasCopied = true →
      (∀ c ∈ u.store.keys, Protects lib u.store (cidStr, .ofType pinType) c → c ∈ s'.store.keys) →
      ∀ c ∈ s.store.keys, Protects lib s.store (cidStr, .ofType pinType) c →
        Covered lib s.gc s.store (cidStr, .ofType pinType) c) := by
  have hstart : BeforeCopy lib store (Sys.initial store world : Sys τ).gc
      (Sys.initial store world : Sys τ).store := ⟨rfl, trivial⟩
  have hpin := World.addPin_returns hok
  obtain ⟨hgc, hst, hw⟩ : u.gc = s.gc ∧ u.store = s.store ∧
      u.world = (s.world.addPin lib.toCidLib io cidStr pinType).1 := by
    obtain rfl := Option.some.inj hadd
    exact ⟨rfl, rfl, rfl⟩
  have hrace := race_run hround hstart hbefore
  rw [← hw] at hpin
  rw [← hgc, ← hst] at hrace ⊢
  rcases hrace with hu | ⟨copied, hu⟩
  · refine ⟨fun hcov c hc hprot => ?_, fun hg => ?_⟩
    · have hc' : c ∈ store.keys := hu.1 ▸ hc
      rcases pinned_run hround hu hpin hafter with hb | ⟨copied, hp, ha⟩
      · simp [BeforeCopy, hr] at hb
      · exact (kept_of_returned hround ha hr hc').mpr
          (reached_of_pinned hp (covered_beforeCopy hu (hcov c hc hprot)))
    · simp [hasCopied_beforeCopy hu] at hg
  · have hend := afterCopy_run hround hu hafter
    cases hg : u.gc.hasCopied with
    | true =>
      have key (c : Bytes) (hc : c ∈ u.store.keys) :
          Covered lib u.gc u.store (cidStr, .ofType pinType) c ↔ c ∈ s'.store.keys := by
        rw [covered_iff hround hu hg hc, kept_of_returned hround hend hr (subset_afterCopy hu c hc)]
      exact ⟨fun hcov c hc hprot => (key c hc).mp (hcov c hc hprot),
        fun _ hkept c hc hprot => (key c hc).mpr (hkept c hc hprot)⟩
    | false =>
      refine ⟨fun _ c hc _ => ?_, by simp⟩
      have hc' := subset_afterCopy hu c hc
      rw [kept_of_returned hround hend hr hc']
      cases hp : u.gc with
      | returned r' => exact (kept_of_returned hround hu hp hc').mp hc
      | marking | sweeping => simp [hp, Phase.hasCopied] at hg
      | _ =>
        rw [hp] at hu
        exact hu.elim

def untilSweep : List (Event Unit) :=
  [.gcLock .enterWrite, .gcLock .resume, .gcRun none, .gcRun none]

def untilReturn : List (Event Unit) := [.gcDelete KnownCid.rawA.str none, .gcRun none]

def linkBLib : DagLib :=
  .ofTable [.rawA, .rawB, .linkToA] [] []
    [(KnownCid.linkToAData, .cborTag 42 (.bytes (0 :: KnownCid.rawA.bytes)))]

def linkBStore : Store := linkStore.set KnownCid.rawB.bytes [98]

def linkPinned : World := ⟨⟨none, linkPins⟩, fun _ => none⟩

theorem linkBStore_roundTrips : RoundTrips linkBLib linkBStore := by
  intro c hc
  have hmem : c ∈ [KnownCid.linkToA.bytes, KnownCid.rawA.bytes, KnownCid.rawB.bytes] := hc
  simp only [List.mem_cons, List.not_mem_nil, or_false] at hmem
  rcases hmem with rfl | rfl | rfl
  · exact ⟨KnownCid.linkToA.str, rfl, rfl⟩
  · exact ⟨KnownCid.rawA.str, rfl, rfl⟩
  · exact ⟨KnownCid.rawB.str, rfl, rfl⟩

/-- `gc` walks the pinned link when the block it links to is pinned too, and then deletes `b`. -/
theorem addPin_kept_marking : ∃ (s' : Sys Unit) (r : GCResult), s'.gc = .returned r ∧
    KnownCid.rawA.bytes ∈ s'.store.keys ∧ KnownCid.rawB.bytes ∉ s'.store.keys := by
  let s : Sys Unit := stateAfter (step linkBLib) (Sys.initial linkBStore linkPinned) untilSweep (by decide)
  let u : Sys Unit := { s with
    world := (s.world.addPin linkBLib.toCidLib .ok KnownCid.rawA.str "recursive").1 }
  let es' : List (Event Unit) := [.gcRun none, .gcRun none, .gcDelete KnownCid.rawB.str none, .gcRun none]
  obtain ⟨s', hsteps, hend⟩ := exists_run (step linkBLib) u es'
    (fun s' => s'.gc.result?.isSome ∧ KnownCid.rawB.bytes ∉ s'.store.keys) (by decide)
  obtain ⟨hreturned, hdeleted⟩ := of_decide_eq_true hend
  obtain ⟨r, hr⟩ := Phase.result?_isSome hreturned
  have hbefore : Run (RaceStep linkBLib) (Sys.initial linkBStore linkPinned) untilSweep s :=
    (run_stateAfter _ _ _ _).restrict (by simp [untilSweep, RaceEvent])
  have hafter : Run (RaceStep linkBLib) u es' s' := hsteps.restrict (by simp [es', RaceEvent])
  have hadd : Step linkBLib s (.addPin KnownCid.rawA.str "recursive" .ok) u := rfl
  have hwalk : walkOrder linkBLib linkBStore (KnownCid.rawA.str, .ofType "recursive") KnownCid.rawA.bytes =
      [KnownCid.rawA.bytes] := by decide
  have hlink : walkOrder linkBLib linkBStore (KnownCid.linkToA.str, .ofType "recursive") KnownCid.linkToA.bytes =
      [KnownCid.linkToA.bytes, KnownCid.rawA.bytes] := by decide
  refine ⟨s', r, hr, ?_, hdeleted⟩
  apply (addPin_kept_iff linkBStore_roundTrips hbefore hadd rfl hafter hr).1 ?_ _ (by decide)
    ⟨KnownCid.rawA.bytes, rfl, .refl⟩
  rintro c - ⟨root, hroot, hreach⟩
  obtain rfl : KnownCid.rawA.bytes = root := Except.ok.inj hroot
  have hc : c ∈ walkOrder linkBLib linkBStore (KnownCid.rawA.str, .ofType "recursive") KnownCid.rawA.bytes :=
    mem_walkOrder.mpr hreach
  rw [hwalk] at hc
  obtain rfl := List.mem_singleton.mp hc
  refine ⟨(KnownCid.linkToA.str, .ofType "recursive"), List.mem_singleton.mpr rfl, _, _, [KnownCid.linkToA.bytes], [],
    rfl, hlink, ?_, _, rfl, rfl⟩
  intro d hd
  obtain rfl := List.mem_singleton.mp hd
  rintro ⟨e, he⟩
  contradiction

theorem addPin_kept_fails : ¬∀ (store : Store) (world : World) (es es' : List (Event Unit))
    (s u s' : Sys Unit) (r : GCResult) (cidStr pinType : String) (io : PinStore.SaveIo),
    Run (RaceStep rawDagLib) (Sys.initial store world) es s →
    Step rawDagLib s (.addPin cidStr pinType io) u →
    (s.world.addPin rawDagLib.toCidLib io cidStr pinType).2 = .ok () →
    Run (RaceStep rawDagLib) u es' s' → s'.gc = .returned r →
    ∀ c ∈ u.store.keys, Protects rawDagLib u.store (cidStr, .ofType pinType) c → c ∈ s'.store.keys := by
  intro hall
  let s : Sys Unit := stateAfter (step rawDagLib) (Sys.initial storeA noPins) untilSweep (by decide)
  let u : Sys Unit := { s with
    world := (s.world.addPin rawDagLib.toCidLib .ok KnownCid.rawA.str "recursive").1 }
  obtain ⟨s', hsteps, hend⟩ := exists_run (step rawDagLib) u untilReturn
    (fun s' => s'.gc.result?.isSome ∧ KnownCid.rawA.bytes ∉ s'.store.keys) (by decide)
  obtain ⟨hreturned, hlost⟩ := of_decide_eq_true hend
  obtain ⟨r, hr⟩ := Phase.result?_isSome hreturned
  have hbefore : Run (RaceStep rawDagLib) (Sys.initial storeA noPins) untilSweep s :=
    (run_stateAfter _ _ _ _).restrict (by simp [untilSweep, RaceEvent])
  have hafter : Run (RaceStep rawDagLib) u untilReturn s' :=
    hsteps.restrict (by simp [untilReturn, RaceEvent])
  exact hlost (hall storeA noPins untilSweep untilReturn s u s' r KnownCid.rawA.str "recursive" .ok
    hbefore rfl rfl hafter hr KnownCid.rawA.bytes (by decide) ⟨KnownCid.rawA.bytes, rfl, .refl⟩)

end Sys

end IpfsLite
