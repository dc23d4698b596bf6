import IpfsLite.PinDurability

namespace IpfsLite

open PinStore

variable {lib : CidLib} {path : Path} {files : Files} {k a b : String}

theorem PinCall.exists_saves {c : lib.Cid} (ha : lib.parseCid a = .ok c) (pins : PinMap) :
    ∃ call pins', saves lib pins call = some pins' ∧
      ∀ k, k ≠ a → call ≠ .removePin k ∧ (k ∈ pins'.keys → k ∈ pins.keys) := by
  cases hg : pins.get? a with
  | none =>
    refine ⟨.addPin a "recursive", pins.set a (.ofType "recursive"), by simp [saves, ha, hg], ?_⟩
    intro k hk
    refine ⟨by simp, fun h => ?_⟩
    exact ((Dict.mem_keys_set ..).mp h).resolve_left hk
  | some v =>
    refine ⟨.removePin a, pins.erase a, by simp [saves, hg], ?_⟩
    intro k hk
    refine ⟨by simpa using Ne.symm hk, fun h => ?_⟩
    exact ((Dict.mem_keys_erase ..).mp h).2

namespace World

variable {w : World}

def Keeps (w : World) (k : String) : Prop := k ∈ w.store.pins.keys ∧ k ∈ w.reloaded.keys

theorem Keeps.exec {c : PinCall × SaveIo} (hk : w.Keeps k) (hp : w.store.path = some path)
    (ht : path.tmpFile ≠ path) (hc : c.1 ≠ .removePin k) : (w.exec lib c.1 c.2).1.Keeps k := by
  cases hs : c.1.saves lib w.store.pins with
  | none => rwa [exec_idle hs]
  | some pins =>
    rw [exec_saves hs]
    have hpins := PinCall.saves_keeps hs hk.1 hc
    refine ⟨hpins, ?_⟩
    rcases commit_reloaded c.2 pins hp ht with h | h
    · rwa [h]
    · rw [h]
      exact hk.2

theorem Keeps.after {cs : List (PinCall × SaveIo)} (hk : w.Keeps k) (hp : w.store.path = some path)
    (ht : path.tmpFile ≠ path) (hcs : ∀ c ∈ cs, c.1 ≠ .removePin k) : (w.after lib cs).Keeps k := by
  induction cs generalizing w with
  | nil => exact hk
  | cons c cs ih =>
    exact ih (hk.exec hp ht (hcs c (by simp))) ((exec_path w c).trans hp)
      (fun d hd => hcs d (by simp [hd]))

theorem writeFails_empties (hp : w.store.path = some path) (ht : path.tmpFile = path)
    {pins : PinMap} : (w.commit (.writeFails none false) pins).1.reloaded = .empty := by
  rw [reloaded_eq (w := (w.commit (.writeFails none false) pins).1) hp]
  simp [commit, save, hp, ht, Files.unlink, load]

/-- No sequence of calls loses a pin that the file held, except by `remove_pin`. -/
def PreservesFile (lib : CidLib) (w : World) (held : PinMap) : Prop :=
  ∀ cs k, k ∈ held.keys → (∀ c ∈ cs, c.1 ≠ .removePin k) → k ∈ (w.after lib cs).reloaded.keys

theorem preservesFile_iff (lib : CidLib) (io : LoadIo) (path : Path) (files : Files)
    (hparse : ∃ a b c d, a ≠ b ∧ lib.parseCid a = .ok c ∧ lib.parseCid b = .ok d) :
    PreservesFile lib (opened io (some path) files) (load .ok (files path)) ↔
      ∀ k ∈ (load .ok (files path)).keys,
        k ∈ (load io (files path)).keys ∧ path.tmpFile ≠ path := by
  constructor
  · intro h k hk
    have hother : ∃ a c, k ≠ a ∧ lib.parseCid a = .ok c := by
      obtain ⟨a, b, c, d, hab, ha, hb⟩ := hparse
      by_cases hka : k = a
      · exact ⟨b, d, hka ▸ hab, hb⟩
      · exact ⟨a, c, hka, ha⟩
    obtain ⟨a, c, hka, ha⟩ := hother
    obtain ⟨call, pins, hs, hcall⟩ := PinCall.exists_saves ha (load io (files path))
    have hs' : call.saves lib (opened io (some path) files).store.pins = some pins := hs
    have hrun (sio : SaveIo) : k ∈ ((opened io (some path) files).commit sio pins).1.reloaded.keys := by
      have := h [(call, sio)] k hk (by simpa using (hcall k hka).1)
      rwa [after_single, exec_saves hs'] at this
    constructor
    · have hsync : ((opened io (some path) files).commit .ok pins).1.InSync := commit_ok_inSync rfl
      have := hrun .ok
      rw [hsync] at this
      exact (hcall k hka).2 this
    · intro ht
      have := hrun (.writeFails none false)
      rw [writeFails_empties rfl ht] at this
      simp at this
  · intro h cs k hk hcs
    obtain ⟨hmem, ht⟩ := h k hk
    have hkeeps : (opened io (some path) files).Keeps k := ⟨hmem, hk⟩
    exact (hkeeps.after rfl ht hcs).2

def filesWithA : Files :=
  Function.update (fun _ => none) Path.pinsJson
    (some (dump (Dict.empty.set KnownCid.rawA.str (.ofType "recursive"))))

theorem preservesFile_interrupted : PreservesFile rawLib
    (opened (.stopsAt 1) (some Path.pinsJson) filesWithA) (load .ok (filesWithA Path.pinsJson)) := by
  refine (preservesFile_iff rawLib (.stopsAt 1) Path.pinsJson filesWithA
    ⟨KnownCid.rawA.str, KnownCid.rawB.str, _, _, by decide, rfl, rfl⟩).mpr ?_
  decide

theorem preservesFile_fails : ¬∀ (io : LoadIo) (path : Path) (files : Files),
    LoadFailed io (files path) →
      PreservesFile rawLib (opened io (some path) files) (load .ok (files path)) := by
  intro hall
  have hkeep := hall .readFails Path.pinsJson filesWithA (.inl (by simp))
    [(.addPin KnownCid.rawB.str "recursive", .ok)] KnownCid.rawA.str (by decide) (by decide)
  exact absurd hkeep (by decide)

end World

end IpfsLite
