import IpfsLite.GcMarking
import IpfsLite.GcSteps

namespace IpfsLite

open Gc Runs

variable {lib : DagLib} {store : Store}

namespace Gc

def ListsKeys (lib : DagLib) (store : Store) (allCids : List String) : Prop :=
  allCids.Nodup ∧ ∀ x, x ∈ allCids ↔ ∃ c ∈ store.keys, display lib c = .ok x

def Target (lib : DagLib) (store : Store) (copied : PinMap) (x : String) : Prop :=
  x ∈ reachableCids lib store copied healthy

def BeforeCopy (lib : DagLib) (store : Store) (p : Phase) (now : Store) : Prop :=
  now = store ∧ match p with
    | .idle | .listing => True
    | .copying allCids => ListsKeys lib store allCids
    | _ => False

structure Sweeps (lib : DagLib) (store : Store) (copied : PinMap) (toDelete : List String)
    (now : Store) : Prop where
  subset : ∀ c ∈ now.keys, c ∈ store.keys
  nodup : toDelete.Nodup
  doomed : ∀ x ∈ toDelete, ¬Target lib store copied x ∧ ∃ c ∈ store.keys, display lib c = .ok x
  kept : ∀ c ∈ store.keys, ∀ x, display lib c = .ok x →
    (c ∈ now.keys ↔ Target lib store copied x ∨ x ∈ toDelete)

def AfterCopy (lib : DagLib) (store : Store) (copied : PinMap) (p : Phase) (now : Store) : Prop :=
  match p with
  | .marking m => now = store ∧ ListsKeys lib store m.allCids ∧
      MarksTo lib store m.allCids copied (Target lib store copied) (.marking m)
  | .sweeping toDelete _ _ => Sweeps lib store copied toDelete now
  | .returned _ => Sweeps lib store copied [] now
  | _ => False

variable {copied : PinMap} {p : Phase}

theorem afterCopy_of_marksTo {allCids : List String}
    (h : MarksTo lib store allCids copied (Target lib store copied) p)
    (hkeys : ListsKeys lib store allCids) : AfterCopy lib store copied p store := by
  cases p with
  | marking m =>
    obtain ⟨rfl, hrest⟩ := h
    exact ⟨rfl, hkeys, rfl, hrest⟩
  | sweeping toDelete deleted retained =>
    obtain ⟨-, reachable, rfl, hr⟩ := h
    refine ⟨fun _ hc => hc, hkeys.1.filter _, ?_, ?_⟩
    · intro x hx
      simp only [List.mem_filter, decide_eq_true_eq] at hx
      exact ⟨fun ht => hx.2 ((hr x).mpr ht), (hkeys.2 x).mp hx.1⟩
    · intro c hc x hx
      have hmem : x ∈ allCids := (hkeys.2 x).mpr ⟨c, hc, hx⟩
      simp only [hc, List.mem_filter, hmem, true_and, true_iff]
      by_cases ht : x ∈ reachable
      · exact .inl ((hr x).mp ht)
      · exact .inr (by simpa using ht)
  | _ => exact h.elim

theorem Sweeps.delete (hround : RoundTrips lib store) {toDelete : List String} {now : Store}
    (h : Sweeps lib store copied toDelete now) {x : String} {c : Bytes} (hx : x ∈ toDelete)
    (hc : pinRoot lib x = .ok c) : Sweeps lib store copied (toDelete.erase x) (now.erase c) := by
  have herase (y : String) : y ∈ toDelete.erase x ↔ y ≠ x ∧ y ∈ toDelete := h.nodup.mem_erase_iff
  refine ⟨fun d hd => h.subset d ((Dict.mem_keys_erase ..).mp hd).2, h.nodup.erase x,
    fun y hy => h.doomed y ((herase y).mp hy).2, ?_⟩
  intro d hd y hy
  obtain ⟨y', hy', hroot⟩ := hround d hd
  obtain rfl : y = y' := by simpa [hy] using hy'
  rw [Dict.mem_keys_erase, h.kept d hd y hy, herase]
  by_cases hyx : y = x
  · subst hyx
    obtain rfl : d = c := by simpa [hroot] using hc
    simp [(h.doomed y hx).1]
  · have hdc : d ≠ c := by
      rintro rfl
      obtain ⟨-, d', hd', hx'⟩ := h.doomed x hx
      obtain ⟨x', hx'', hroot'⟩ := hround d' hd'
      obtain rfl : x = x' := by simpa [hx'] using hx''
      obtain rfl : d' = d := by simpa [hroot'] using hc
      exact hyx (by simpa [hy] using hx')
    simp [hdc, hyx]

end Gc

namespace Sys

variable {τ : Type*} [DecidableEq τ] {copied : PinMap} {s s' : Sys τ} {e : Event τ}

def RaceEvent : Event τ → Prop
  | .gcLock _ | .gcRun none | .gcDelete _ none | .addPin .. => True
  | _ => False

def RaceStep (lib : DagLib) (s : Sys τ) (e : Event τ) (s' : Sys τ) : Prop := Step lib s e s' ∧ RaceEvent e

theorem race_cases (h : RaceStep lib s e s') :
    (∃ a, s.gcLock a = some s') ∨ GcMove lib none s s' ∨
      ∃ cidStr pinType io, e = .addPin cidStr pinType io ∧
        s' = { s with world := (s.world.addPin lib.toCidLib io cidStr pinType).1 } := by
  obtain ⟨hstep, he⟩ := h
  cases e with
  | gcLock a => exact .inl ⟨a, hstep⟩
  | gcRun fails =>
    cases fails with
    | none => exact .inr (.inl (gcRun_move hstep))
    | some e => exact he.elim
  | gcDelete x fails =>
    cases fails with
    | none => exact .inr (.inl (gcDelete_move hstep))
    | some e => exact he.elim
  | addPin cidStr pinType io => exact .inr (.inr ⟨cidStr, pinType, io, rfl, (Option.some.inj hstep).symm⟩)
  | _ => exact he.elim

theorem beforeCopy_step (hround : RoundTrips lib store) (h : BeforeCopy lib store s.gc s.store)
    (hstep : RaceStep lib s e s') : BeforeCopy lib store s'.gc s'.store ∨
      AfterCopy lib store s.world.store.pins s'.gc s'.store := by
  obtain ⟨hs, hphase⟩ := h
  obtain ⟨a, hlock⟩ | hmove | ⟨cidStr, pinType, io, -, rfl⟩ := race_cases hstep
  · obtain ⟨hg, -, l, -, ⟨-, rfl⟩ | ⟨-, rfl⟩⟩ := gcLock_cases hlock
    · exact .inl ⟨hs, trivial⟩
    · exact .inl ⟨hs, by simp [hg]⟩
  · cases hmove with
    | @list listed hg hlisted =>
      obtain ⟨keys, hkeys, hmem⟩ := hround.mapM_display
      obtain rfl : keys = listed := Except.ok.inj (hkeys.symm.trans (hs ▸ hlisted))
      exact .inl ⟨hs, List.nodup_dedup _, by simpa using hmem⟩
    | @listRaises l e hg hraised =>
      obtain ⟨keys, hkeys, -⟩ := hround.mapM_display
      have hok : Except.ok keys = Except.error e := hkeys.symm.trans (hs ▸ hraised)
      contradiction
    | copy hg =>
      rw [hg] at hphase
      refine .inr ?_
      dsimp only
      rw [hs]
      refine afterCopy_of_marksTo (marksTo_nextPin ?_) hphase
      intro x
      simp [Target, reachableCids]
    | mark hg | delete hg | finish hg | deleteRaises hg => simp [hg] at hphase
  · exact .inl ⟨hs, hphase⟩

theorem afterCopy_step (hround : RoundTrips lib store) (h : AfterCopy lib store copied s.gc s.store)
    (hstep : RaceStep lib s e s') : AfterCopy lib store copied s'.gc s'.store := by
  obtain ⟨a, hlock⟩ | hmove | ⟨cidStr, pinType, io, -, rfl⟩ := race_cases hstep
  · rw [(gcLock_cases hlock).1] at h
    exact h.elim
  · cases hmove with
    | list hg | listRaises hg | copy hg =>
      rw [hg] at h
      exact h.elim
    | mark hg =>
      rw [hg] at h
      obtain ⟨hs, hkeys, hm⟩ := h
      dsimp only
      rw [hs]
      exact afterCopy_of_marksTo (marksTo_resume hm) hkeys
    | delete hg hx hcid =>
      rw [hg] at h
      exact Sweeps.delete hround h hx hcid
    | finish hg =>
      rw [hg] at h
      exact h
    | @deleteRaises l x e _ _ _ hg hx hraised =>
      rw [hg] at h
      obtain ⟨-, c, hc, hcx⟩ := Sweeps.doomed h x hx
      obtain ⟨x', hx', hroot⟩ := hround c hc
      obtain rfl : x = x' := by simpa [hcx] using hx'
      simp [hroot, Except.bind] at hraised
  · exact h

theorem afterCopy_run (hround : RoundTrips lib store) {es : List (Event τ)}
    (h : AfterCopy lib store copied s.gc s.store) (hrun : Run (RaceStep lib) s es s') :
    AfterCopy lib store copied s'.gc s'.store :=
  hrun.invariant (P := fun s => AfterCopy lib store copied s.gc s.store)
    (fun _ _ _ hu hstep => afterCopy_step hround hu hstep) h

theorem race_run (hround : RoundTrips lib store) {es : List (Event τ)}
    (h : BeforeCopy lib store s.gc s.store) (hrun : Run (RaceStep lib) s es s') :
    BeforeCopy lib store s'.gc s'.store ∨ ∃ copied, AfterCopy lib store copied s'.gc s'.store := by
  refine hrun.invariant (P := fun s => BeforeCopy lib store s.gc s.store ∨
    ∃ copied, AfterCopy lib store copied s.gc s.store) ?_ (.inl h)
  rintro u e v (hu | ⟨copied, hu⟩) hstep
  · exact (beforeCopy_step hround hu hstep).imp_right fun hv => ⟨_, hv⟩
  · exact .inr ⟨copied, afterCopy_step hround hu hstep⟩

omit [DecidableEq τ] in
theorem kept_of_returned (hround : RoundTrips lib store) {r : GCResult} {c : Bytes}
    (h : AfterCopy lib store copied s.gc s.store) (hr : s.gc = .returned r) (hc : c ∈ store.keys) :
    c ∈ s.store.keys ↔ ∃ q ∈ copied.entries, Reached lib store healthy q c := by
  rw [hr] at h
  obtain ⟨x, hx, -⟩ := hround c hc
  rw [Sweeps.kept h c hc x hx, ← mem_reachableCids_iff_reached hx]
  simp [Target]

theorem subset_afterCopy {p : Phase} {now : Store} (h : AfterCopy lib store copied p now) :
    ∀ c ∈ now.keys, c ∈ store.keys := by
  intro c hc
  cases p with
  | marking m => exact h.1 ▸ hc
  | sweeping | returned => exact Sweeps.subset h c hc
  | _ => exact h.elim

end Sys

end IpfsLite
