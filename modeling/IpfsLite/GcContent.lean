import IpfsLite.ContentFrame
import IpfsLite.GcPinning

/-!
A run of `gc` among operations that write blocks: a DAG that is complete and recursively pinned when it
starts stays as it is, and so does the file that it stands for.
-/

namespace IpfsLite

open Gc Runs Worklist

namespace Gc

variable {lib : DagLib} {store : Store} {root : Bytes}

def dagLinks (lib : DagLib) (store : Store) (cid : Bytes) : Except PyError (List Bytes) :=
  blockOrMissing lib false cid (store.get? cid)

def InDag (lib : DagLib) (store : Store) (root cid : Bytes) : Prop := Reach (dagLinks lib store) root cid

structure Complete (lib : DagLib) (store : Store) (root : Bytes) : Prop where
  stored : ∀ c, InDag lib store root c → c ∈ store.keys
  shown : ∀ c, InDag lib store root c → ∃ s, display lib c = .ok s
  links : ∀ c, InDag lib store root c → ∃ cs, dagLinks lib store c = .ok cs

def AllMarked (lib : DagLib) (store : Store) (root : Bytes) (reachable : List String) : Prop :=
  ∀ c, InDag lib store root c → ∀ s, display lib c = .ok s → s ∈ reachable

structure Pursues (lib : DagLib) (store : Store) (root : Bytes) (m : Marking) : Prop where
  explores : Explores (dagLinks lib store) root (· = m.current) m.walk
  current : m.current ∈ m.walk.visited
  marked : ∀ c ∈ m.walk.visited, ∀ s, display lib c = .ok s → s ∈ m.reachable

def Shields (lib : DagLib) (store : Store) (root : Bytes) (pin : String × PinValue) : Phase → Prop
  | .marking m => (pin ∈ m.pinsLeft ∨ AllMarked lib store root m.reachable) ∨ Pursues lib store root m
  | .sweeping toDelete _ _ => ∀ c, InDag lib store root c → ∀ s, display lib c = .ok s → s ∉ toDelete
  | _ => True

def Lists (lib : DagLib) : Phase → Prop
  | .copying allCids => ∀ x ∈ allCids, ∃ c, display lib c = .ok x
  | .marking m => ∀ x ∈ m.allCids, ∃ c, display lib c = .ok x
  | .sweeping toDelete _ _ => ∀ x ∈ toDelete, ∃ c, display lib c = .ok x
  | _ => True

variable {allCids reachable : List String} {copied : PinMap} {pin : String × PinValue}

theorem AllMarked.append (h : AllMarked lib store root reachable) (more : List String) :
    AllMarked lib store root (reachable ++ more) := fun c hc s hs => List.mem_append_left more (h c hc s hs)

theorem lists_nextPin (h : ∀ x ∈ allCids, ∃ c, display lib c = .ok x) (pins : List (String × PinValue)) :
    Lists lib (nextPin lib allCids copied pins reachable) := by
  induction pins generalizing reachable with
  | nil => exact fun x hx => h x (List.mem_of_mem_filter hx)
  | cons pin pins ih =>
    simp only [nextPin]
    split
    · exact ih
    · split
      · exact ih
      · exact h

theorem lists_resume {m : Marking} (h : Lists lib (.marking m)) (read : Except PyError (Option Bytes)) :
    Lists lib (m.resume lib read) := by
  simp only [Marking.resume]
  split
  · exact lists_nextPin h _
  · split
    · exact lists_nextPin h _
    · exact h

theorem shields_nextPin (hc : Complete lib store root) (hroot : pinRoot lib pin.1 = .ok root)
    (hrec : pin.2.isType "recursive" = true) {pins : List (String × PinValue)}
    (h : pin ∈ pins ∨ AllMarked lib store root reachable) :
    Shields lib store root pin (nextPin lib allCids copied pins reachable) := by
  induction pins generalizing reachable with
  | nil =>
    have hall := h.resolve_left (List.not_mem_nil (a := pin))
    intro c hdag s hs hdelete
    exact of_decide_eq_true (List.mem_filter.mp hdelete).2 (hall c hdag s hs)
  | cons other pins ih =>
    simp only [nextPin]
    by_cases hother : other = pin
    · obtain ⟨s, hs⟩ := hc.shown root .refl
      have hpop := pop_some (pop_start root)
      rw [hother, hroot, hrec]
      simp only [yieldNext, pop_start, hs, if_true, Option.toList_some]
      refine .inr ⟨explores_start.pop hpop, List.mem_singleton.mpr rfl, fun c hvisited t ht => ?_⟩
      obtain rfl := List.mem_singleton.mp hvisited
      obtain rfl := Except.ok.inj (hs.symm.trans ht)
      exact List.mem_append_right reachable (List.mem_singleton.mpr rfl)
    · have hrest : pin ∈ pins ∨ AllMarked lib store root reachable :=
        h.imp_left fun hmem => (List.mem_cons.mp hmem).resolve_left (Ne.symm hother)
      split
      · exact ih hrest
      · split
        · exact ih (hrest.imp_right fun hall => hall.append _)
        · exact .inl (hrest.imp_right fun hall => hall.append _)

theorem shields_resume (hc : Complete lib store root) (hroot : pinRoot lib pin.1 = .ok root)
    (hrec : pin.2.isType "recursive" = true) {m : Marking} (h : Shields lib store root pin (.marking m))
    {read : Except PyError (Option Bytes)}
    (hread : InDag lib store root m.current → read = .ok (store.get? m.current)) :
    Shields lib store root pin (m.resume lib read) := by
  rcases h with hleft | hpursues
  · simp only [Marking.resume]
    split
    · exact shields_nextPin hc hroot hrec hleft
    · split
      · exact shields_nextPin hc hroot hrec (hleft.imp_right fun hall => hall.append _)
      · exact .inl (hleft.imp_right fun hall => hall.append _)
  · have hcurrent := hpursues.explores.sound m.current (.inl hpursues.current)
    obtain ⟨cs, hcs⟩ := hc.links m.current hcurrent
    have hbind : read.bind (blockOrMissing lib false m.current) = .ok cs := by
      rw [hread hcurrent]
      exact hcs
    have hpush := hpursues.explores.push hpursues.current hcs
    simp only [Marking.resume, hbind, yieldNext]
    cases hp : (m.walk.push cs).pop with
    | none =>
      apply shields_nextPin hc hroot hrec
      refine .inr fun c hdag s hs => ?_
      exact List.mem_append_left _ (hpursues.marked c (hpush.complete hp hdag) s hs)
    | some next =>
      obtain ⟨c, u⟩ := next
      have hpops := pop_some hp
      have hdag := hpush.sound c (.inr hpops.queued)
      obtain ⟨s, hs⟩ := hc.shown c hdag
      simp only [hs, if_true, Option.toList_some]
      refine .inr ⟨hpush.pop hpops, ?_, fun d hvisited t ht => ?_⟩
      · rw [hpops.visited]
        exact List.mem_append_right _ (List.mem_singleton.mpr rfl)
      · rw [hpops.visited] at hvisited
        rcases List.mem_append.mp hvisited with hd | hd
        · exact List.mem_append_left _ (hpursues.marked d hd t ht)
        · obtain rfl := List.mem_singleton.mp hd
          obtain rfl := Except.ok.inj (hs.symm.trans ht)
          exact List.mem_append_right _ (List.mem_singleton.mpr rfl)

theorem mem_mapM_display {cids : List Bytes} {ss : List String} (h : cids.mapM (display lib) = .ok ss) :
    ∀ x ∈ ss, ∃ c, display lib c = .ok x := by
  induction cids generalizing ss with
  | nil =>
    obtain rfl : [] = ss := Except.ok.inj h
    simp
  | cons c cids ih =>
    rw [List.mapM_cons] at h
    obtain ⟨s, hs, h⟩ := bind_ok.mp h
    obtain ⟨rest, hrest, h⟩ := bind_ok.mp h
    obtain rfl : s :: rest = ss := Except.ok.inj h
    intro x hx
    rcases List.mem_cons.mp hx with rfl | hx
    · exact ⟨c, hs⟩
    · exact ih hrest x hx

end Gc

namespace Sys

variable {τ : Type*} [DecidableEq τ] {lib : DagLib} {store : Store} {root : Bytes} {cidStr : String}
  {s s' : Sys τ} {e : Event τ}

/-- A step that leaves the DAG alone: what it puts under a CID of the DAG is the block of that CID, it
removes no block of the DAG, and the marking loop can read what it reads of the DAG. -/
def Spares (lib : DagLib) (store : Store) (root : Bytes) (s : Sys τ) : Event τ → Prop
  | .run t =>
    match s.ops t with
    | .running _ (.put cid data _ :: _) _ => InDag lib store root cid → store.get? cid = some data
    | .running _ (.delete cid :: _) _ => ¬InDag lib store root cid
    | _ => True
  | .gcRun (some _) => ∀ m, s.gc = .marking m → ¬InDag lib store root m.current
  | _ => True

def SparingStep (lib : DagLib) (store : Store) (root : Bytes) (s : Sys τ) (e : Event τ) (s' : Sys τ) : Prop :=
  Step lib s e s' ∧ Spares lib store root s e

structure Sheltered (lib : DagLib) (store : Store) (root : Bytes) (cidStr : String) (s : Sys τ) : Prop where
  kept : ∀ c, InDag lib store root c → s.store.get? c = store.get? c
  pinned : s.world.store.pins.get? cidStr = some (.ofType "recursive")
  shields : Shields lib store root (cidStr, .ofType "recursive") s.gc
  lists : Lists lib s.gc

omit [DecidableEq τ] in
theorem Sheltered.of_eq (h : Sheltered lib store root cidStr s) (hstore : s'.store = s.store)
    (hworld : s'.world = s.world) (hgc : s'.gc = s.gc) : Sheltered lib store root cidStr s' := by
  refine ⟨?_, ?_, ?_, ?_⟩
  · rw [hstore]
    exact h.kept
  · rw [hworld]
    exact h.pinned
  · rw [hgc]
    exact h.shields
  · rw [hgc]
    exact h.lists

theorem sheltered_run {t : τ} (h : Sheltered lib store root cidStr s) (hstep : s.run t = some s')
    (hspares : Spares lib store root s (.run t)) : Sheltered lib store root cidStr s' := by
  simp only [run] at hstep
  simp only [Spares] at hspares
  split at hstep
  · rename_i hop
    obtain rfl := Option.some.inj hstep
    rw [hop] at hspares
    refine ⟨fun c hc => ?_, h.pinned, h.shields, h.lists⟩
    rw [Dict.get?_set]
    split_ifs with hput
    · rw [hput] at hc ⊢
      exact (hspares hc).symm
    · exact h.kept c hc
  · obtain rfl := Option.some.inj hstep
    exact h.of_eq rfl rfl rfl
  · rename_i hop
    obtain rfl := Option.some.inj hstep
    rw [hop] at hspares
    refine ⟨fun c hc => ?_, h.pinned, h.shields, h.lists⟩
    rw [Dict.get?_erase, if_neg]
    · exact h.kept c hc
    · rintro rfl
      exact hspares hc
  · obtain rfl := Option.some.inj hstep
    exact h.of_eq rfl rfl rfl
  · contradiction

theorem sheltered_move (hshow : ∀ c x, display lib c = .ok x → pinRoot lib x = .ok c)
    (hroot : pinRoot lib cidStr = .ok root) (hc : Complete lib store root) {fails : Option PyError}
    (h : Sheltered lib store root cidStr s) (hmove : GcMove lib fails s s')
    (hreads : ∀ m, s.gc = .marking m → InDag lib store root m.current → fails = none) :
    Sheltered lib store root cidStr s' := by
  have hrec : (PinValue.ofType "recursive").isType "recursive" = true := PinValue.isType_iff.mpr rfl
  cases hmove with
  | list _ hkeys =>
    obtain ⟨cids, -, hcids⟩ := bind_ok.mp hkeys
    refine ⟨h.kept, h.pinned, trivial, fun x hx => ?_⟩
    exact mem_mapM_display hcids x (List.mem_dedup.mp hx)
  | copy hp =>
    have hlists := h.lists
    rw [hp] at hlists
    refine ⟨h.kept, h.pinned, ?_, lists_nextPin hlists _⟩
    exact shields_nextPin hc hroot hrec (.inl (Dict.get?_eq_some.mp h.pinned))
  | @mark m hp =>
    have hlists := h.lists
    have hshields := h.shields
    rw [hp] at hlists hshields
    refine ⟨h.kept, h.pinned, ?_, lists_resume hlists _⟩
    apply shields_resume hc hroot hrec hshields
    intro hdag
    rw [hreads m hp hdag, h.kept m.current hdag]
    rfl
  | @delete x cid toDelete deleted retained hp hx hcid =>
    have hlists := h.lists
    have hshields := h.shields
    rw [hp] at hlists hshields
    refine ⟨fun c hdag => ?_, h.pinned, ?_, fun y hy => hlists y (List.mem_of_mem_erase hy)⟩
    · obtain ⟨d, hd⟩ := hlists x hx
      obtain rfl : d = cid := Except.ok.inj ((hshow d x hd).symm.trans hcid)
      rw [Dict.get?_erase, if_neg]
      · exact h.kept c hdag
      · rintro rfl
        exact hshields c hdag x hd hx
    · exact fun c hdag y hy hdelete => hshields c hdag y hy (List.mem_of_mem_erase hdelete)
  | finish | listRaises | deleteRaises => exact ⟨h.kept, h.pinned, trivial, trivial⟩

theorem sheltered_step (hshow : ∀ c x, display lib c = .ok x → pinRoot lib x = .ok c)
    (hroot : pinRoot lib cidStr = .ok root) (hc : Complete lib store root)
    (h : Sheltered lib store root cidStr s) (hstep : SparingStep lib store root s e s') :
    Sheltered lib store root cidStr s' := by
  obtain ⟨hstep, hspares⟩ := hstep
  cases e with
  | call t op =>
    simp only [Step, step, call] at hstep
    split at hstep
    · obtain rfl := Option.some.inj hstep
      exact h.of_eq rfl rfl rfl
    · contradiction
  | lock t a =>
    simp only [Step, step, lockStep] at hstep
    split at hstep
    · split at hstep
      · contradiction
      · obtain ⟨l, -, rfl⟩ := Option.map_eq_some_iff.mp hstep
        split_ifs <;> exact h.of_eq rfl rfl rfl
    · contradiction
  | run t => exact sheltered_run h hstep hspares
  | fail t =>
    simp only [Step, step, fail] at hstep
    split at hstep
    · split_ifs at hstep <;> obtain rfl := Option.some.inj hstep <;> exact h.of_eq rfl rfl rfl
    · obtain rfl := Option.some.inj hstep
      exact h.of_eq rfl rfl rfl
    · obtain rfl := Option.some.inj hstep
      exact h.of_eq rfl rfl rfl
    · obtain rfl := Option.some.inj hstep
      exact h.of_eq rfl rfl rfl
    · contradiction
  | gcLock a =>
    obtain ⟨-, -, l, -, ⟨-, rfl⟩ | ⟨-, rfl⟩⟩ := gcLock_cases hstep
    · exact ⟨h.kept, h.pinned, trivial, trivial⟩
    · exact h.of_eq rfl rfl rfl
  | gcRun fails =>
    apply sheltered_move hshow hroot hc h (gcRun_move hstep)
    intro m hp hdag
    cases fails with
    | none => rfl
    | some e => exact absurd hdag (hspares m hp)
  | gcDelete x fails =>
    apply sheltered_move hshow hroot hc h (gcDelete_move hstep)
    intro m hp
    simp [step, Step, gcDelete, hp] at hstep
  | addPin other otherType io =>
    obtain rfl := Option.some.inj hstep
    have hpinned : Pinned s.world.store.pins cidStr "recursive" := .inl h.pinned
    have hafter : Pinned (s.world.addPin lib.toCidLib io other otherType).1.store.pins cidStr "recursive" :=
      World.addPin_pinned hpinned
    refine ⟨h.kept, ?_, h.shields, h.lists⟩
    rcases hafter with hp | ⟨hdirect, -⟩
    · exact hp
    · exact absurd hdirect (by decide)

end Sys

namespace Files

open Sys

theorem sameBelow_of_kept {lib : FileLib} {store store' : Store} {root : Bytes}
    (hpb : ∀ codec, lib.normaliseCodec "dag-pb" = .ok codec → codec.isDagPb = true)
    (hc : Complete lib.toDagLib store root)
    (hkept : ∀ c, InDag lib.toDagLib store root c → store'.get? c = store.get? c) :
    SameBelow lib store store' root := by
  intro d hd
  apply hkept
  induction hd with
  | refl => exact .refl
  | @tail m d _ hlink ih =>
    obtain ⟨data, hdata⟩ := Dict.mem_keys.mp (hc.stored m ih)
    obtain ⟨cs, hcs⟩ := hc.links m ih
    refine ih.tail ⟨cs, hcs, ?_⟩
    rw [dagLinks, hdata] at hcs
    exact hlink.mem_blockLinks hpb hdata hcs

theorem gc_keeps_content {τ : Type} [DecidableEq τ] (lib : FileLib)
    (hpb : ∀ codec, lib.normaliseCodec "dag-pb" = .ok codec → codec.isDagPb = true)
    (hshow : ∀ c x, display lib.toDagLib c = .ok x → pinRoot lib.toDagLib x = .ok c)
    (store : Store) (world : World) (cidStr : String) (root : Bytes)
    (hpin : world.store.pins.get? cidStr = some (.ofType "recursive"))
    (hroot : pinRoot lib.toDagLib cidStr = .ok root) (hc : Complete lib.toDagLib store root)
    (es : List (Event τ)) (s : Sys τ) (h : Run (SparingStep lib.toDagLib store root) (Sys.initial store world) es s) :
    (∀ c, InDag lib.toDagLib store root c → s.store.get? c = store.get? c) ∧
      ∀ content, Content lib store root content →
        Content lib s.store root content ∧ Downloads lib s.store root content (AllPlain lib store root) := by
  have hinit : Sheltered lib.toDagLib store root cidStr (Sys.initial store world : Sys τ) :=
    ⟨fun _ _ => rfl, hpin, trivial, trivial⟩
  have hend := h.invariant (fun _ _ _ hu hstep => sheltered_step hshow hroot hc hu hstep) hinit
  have hsame := sameBelow_of_kept hpb hc hend.kept
  exact ⟨hend.kept, fun content hcontent => ⟨hcontent.of_sameBelow hsame, hsame.downloads hcontent⟩⟩

theorem fileLib_display (c : Bytes) (x : String) (h : display fileLib.toDagLib c = .ok x) :
    pinRoot fileLib.toDagLib x = .ok c := by
  have hrows : ∀ row ∈ [KnownCid.rawA, .twiceA, .xThenA], pinRoot fileLib.toDagLib row.str = .ok row.bytes := by
    intro row hrow
    simp only [List.mem_cons, List.not_mem_nil, or_false] at hrow
    rcases hrow with rfl | rfl | rfl <;> rfl
  obtain ⟨row, hrow, hx⟩ := map_ok.mp h
  obtain ⟨hmem, hbytes⟩ := ofTable_parseCidBytes hrow
  subst hx hbytes
  exact hrows row hmem

theorem twiceA_complete : Complete fileLib.toDagLib fileStore KnownCid.twiceA.bytes := by
  have hlinks : dagLinks fileLib.toDagLib fileStore KnownCid.twiceA.bytes =
      .ok [KnownCid.rawA.bytes, KnownCid.rawA.bytes] := rfl
  have hleaf : dagLinks fileLib.toDagLib fileStore KnownCid.rawA.bytes = .ok [] := rfl
  have hdag (c : Bytes) (h : InDag fileLib.toDagLib fileStore KnownCid.twiceA.bytes c) :
      c = KnownCid.twiceA.bytes ∨ c = KnownCid.rawA.bytes := by
    induction h with
    | refl => exact .inl rfl
    | tail _ hedge ih =>
      obtain ⟨cs, hcs, hmem⟩ := hedge
      rcases ih with rfl | rfl
      · rw [hlinks] at hcs
        obtain rfl := Except.ok.inj hcs
        exact .inr (by simpa using hmem)
      · rw [hleaf] at hcs
        obtain rfl := Except.ok.inj hcs
        exact absurd hmem (List.not_mem_nil)
  refine ⟨fun c hc => ?_, fun c hc => ?_, fun c hc => ?_⟩
  · rcases hdag c hc with rfl | rfl <;> decide
  · rcases hdag c hc with rfl | rfl
    · exact ⟨KnownCid.twiceA.str, rfl⟩
    · exact ⟨KnownCid.rawA.str, rfl⟩
  · rcases hdag c hc with rfl | rfl
    · exact ⟨_, hlinks⟩
    · exact ⟨_, hleaf⟩

def pinnedTwiceA : World := ⟨⟨none, Dict.empty.set KnownCid.twiceA.str (.ofType "recursive")⟩, fun _ => none⟩

/-- The root is put again, and `gc` deletes the one file that is not pinned. -/
def putAndCollect : List (Event Unit) :=
  [.gcLock .enterWrite, .gcLock .resume, .gcRun none, .gcRun none, .gcRun none, .gcRun none,
    .gcDelete KnownCid.xThenA.str none, .gcRun none]

theorem sparing_of_quiet {lib : DagLib} {store : Store} {root : Bytes} {s s' : Sys Unit} {e : Event Unit}
    (h : Step lib s e s' ∧ e ≠ .run () ∧ ∀ f, e ≠ .gcRun (some f)) : SparingStep lib store root s e s' := by
  obtain ⟨hstep, hrun, hfails⟩ := h
  refine ⟨hstep, ?_⟩
  cases e with
  | run t => exact absurd rfl hrun
  | gcRun fails =>
    cases fails with
    | none => trivial
    | some f => exact absurd rfl (hfails f)
  | _ => trivial

theorem gc_keeps_twiceA : ∃ s : Sys Unit, s.gc.result?.isSome ∧ KnownCid.xThenA.bytes ∉ s.store.keys ∧
    Content fileLib s.store KnownCid.twiceA.bytes [97, 97] := by
  let op : Op := .putBlock KnownCid.twiceA.bytes KnownCid.twiceAData
  let called : Sys Unit :=
    stateAfter (step fileLib.toDagLib) (Sys.initial fileStore pinnedTwiceA) [.call () op] (by decide)
  let put : Sys Unit := stateAfter (step fileLib.toDagLib) called [.run ()] (by decide)
  obtain ⟨s, hgc, hend⟩ := exists_run (step fileLib.toDagLib) put putAndCollect
    (fun s => s.gc.result?.isSome ∧ KnownCid.xThenA.bytes ∉ s.store.keys) (by decide)
  have hcall : SparingStep fileLib.toDagLib fileStore KnownCid.twiceA.bytes
      (Sys.initial fileStore pinnedTwiceA) (.call () op) called := ⟨rfl, trivial⟩
  have hput : SparingStep fileLib.toDagLib fileStore KnownCid.twiceA.bytes called (.run ()) put :=
    ⟨rfl, fun _ => by decide⟩
  have hquiet : Run (SparingStep fileLib.toDagLib fileStore KnownCid.twiceA.bytes) put putAndCollect s :=
    (hgc.restrict (by simp [putAndCollect])).mono fun _ _ _ => sparing_of_quiet
  obtain ⟨-, hkeeps⟩ := gc_keeps_content fileLib (fun codec h => by cases h; rfl) fileLib_display fileStore
    pinnedTwiceA KnownCid.twiceA.str KnownCid.twiceA.bytes rfl rfl twiceA_complete _ s
    (.head hcall (.head hput hquiet))
  obtain ⟨hreturned, hlost⟩ := of_decide_eq_true hend
  exact ⟨s, hreturned, hlost, (hkeeps [97, 97] twiceA_content).1⟩

end Files

end IpfsLite
