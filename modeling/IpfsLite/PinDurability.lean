import IpfsLite.Lib.Runs
import IpfsLite.PinStore

namespace IpfsLite

open PinStore

namespace PinStore

theorem migrateLoop_dump (pins : PinMap) :
    migrateLoop (pins.entries.map (fun e => (e.1, e.2.val))) = pins := by
  apply Dict.ext
  simp only [migrateLoop, List.foldl_map, PinValue.migrate_val]
  exact Dict.foldl_set_entries pins.entries .empty pins.nodup

theorem load_dump (pins : PinMap) : load .ok (some (dump pins)) = pins := by
  have hkeys : ((pins.entries.map (fun e => (e.1, e.2.val))).map Prod.fst).Nodup := by
    rw [List.map_map]
    exact pins.nodup
  have hraw : rawPins (dump pins) =
      .ok (Dict.ofList (pins.entries.map (fun e => (e.1, e.2.val)))) := rfl
  have hentries := Dict.foldl_set_entries (pins.entries.map (fun e => (e.1, e.2.val))) .empty hkeys
  simp only [load, hraw]
  exact (congrArg migrateLoop hentries).trans (migrateLoop_dump pins)

variable {path : Path} {files : Files} {store : PinStore}

theorem save_ok_file (hs : store.path = some path) :
    (store.save .ok files).1 path = some (dump store.pins) := by
  simp only [save, hs, Files.replace]
  split_ifs with h
  · simp [h]
  · simp [Function.update_of_ne (Ne.symm h)]

theorem unlink_other {p q : Path} (h : q ≠ p) (unlinked : Bool) :
    Files.unlink files p unlinked q = files q := by
  cases unlinked <;> simp [Files.unlink, h]

theorem save_failed_file (hs : store.path = some path) (ht : path.tmpFile ≠ path) {io : SaveIo}
    (hio : io ≠ .ok) : (store.save io files).1 path = files path := by
  cases io with
  | ok => exact absurd rfl hio
  | mkdirFails e => simp [save, hs]
  | writeFails left unlinked =>
    simp [save, hs, unlink_other ht.symm, Function.update_of_ne ht.symm]
  | replaceFails unlinked =>
    simp [save, hs, unlink_other ht.symm, Function.update_of_ne ht.symm]

theorem save_failed_returns (hs : store.path = some path) {io : SaveIo}
    (hio : ∀ e, io ≠ .mkdirFails e) : (store.save io files).2 = .ok () := by
  cases io with
  | mkdirFails e => exact absurd rfl (hio e)
  | _ => simp [save, hs]

end PinStore

variable (lib : CidLib)

/-- The map a call hands to `_save`; none if the call returns or raises before it changes anything. -/
def PinCall.saves (pins : PinMap) : PinCall → Option PinMap
  | .addPin cidStr pinType =>
    match lib.parseCid cidStr with
    | .error _ => none
    | .ok _ =>
      if pinType ≠ "direct" ∧ pinType ≠ "recursive" then none
      else
        match pins.get? cidStr with
        | none => some (pins.set cidStr (.ofType pinType))
        | some existing =>
          if existing.isType pinType then none
          else if existing.isType "recursive" ∧ pinType = "direct" then none
          else some (pins.set cidStr (.ofType pinType))
  | .removePin cidStr => (pins.get? cidStr).map (fun _ => pins.erase cidStr)

namespace World

variable {lib} {w : World} {call : PinCall} {io : SaveIo} {pins : PinMap}

theorem addPin_spec (lib : CidLib) (w : World) (io : SaveIo) (cidStr pinType : String) :
    match (PinCall.addPin cidStr pinType).saves lib w.store.pins with
    | some pins => w.addPin lib io cidStr pinType = w.commit io pins
    | none => (w.addPin lib io cidStr pinType).1 = w := by
  simp only [PinCall.saves, addPin]
  cases hp : lib.parseCid cidStr with
  | error e => rfl
  | ok c =>
    by_cases ht : pinType ≠ "direct" ∧ pinType ≠ "recursive"
    · simp only [if_pos ht]
    · simp only [if_neg ht]
      cases hg : w.store.pins.get? cidStr with
      | none => rfl
      | some existing =>
        by_cases hsame : existing.isType pinType
        · simp only [if_pos hsame]
        · simp only [if_neg hsame]
          by_cases hdown : existing.isType "recursive" ∧ pinType = "direct"
          · simp only [if_pos hdown]
          · simp only [if_neg hdown]

theorem exec_spec (lib : CidLib) (w : World) (call : PinCall) (io : SaveIo) :
    match call.saves lib w.store.pins with
    | some pins => w.exec lib call io = w.commit io pins
    | none => (w.exec lib call io).1 = w := by
  cases call with
  | addPin cidStr pinType => exact addPin_spec lib w io cidStr pinType
  | removePin cidStr =>
    simp only [PinCall.saves, exec, removePin]
    cases hg : w.store.pins.get? cidStr <;> rfl

theorem exec_saves (h : call.saves lib w.store.pins = some pins) :
    w.exec lib call io = w.commit io pins := by
  have := exec_spec lib w call io
  rwa [h] at this

theorem exec_idle (h : call.saves lib w.store.pins = none) : (w.exec lib call io).1 = w := by
  have := exec_spec lib w call io
  rwa [h] at this

theorem after_append (w : World) (cs ds : List (PinCall × SaveIo)) :
    w.after lib (cs ++ ds) = (w.after lib cs).after lib ds := List.foldl_append ..

theorem after_single (w : World) (c : PinCall × SaveIo) :
    w.after lib [c] = (w.exec lib c.1 c.2).1 := rfl

@[simp] theorem commit_path : (w.commit io pins).1.store.path = w.store.path := rfl

@[simp] theorem commit_pins : (w.commit io pins).1.store.pins = pins := rfl

theorem exec_path (w : World) (c : PinCall × SaveIo) :
    (w.exec lib c.1 c.2).1.store.path = w.store.path := by
  cases hs : c.1.saves lib w.store.pins with
  | none => rw [exec_idle hs]
  | some pins => rw [exec_saves hs, commit_path]

theorem after_path (w : World) (cs : List (PinCall × SaveIo)) :
    (w.after lib cs).store.path = w.store.path := by
  induction cs generalizing w with
  | nil => rfl
  | cons c cs ih => exact (ih _).trans (exec_path w c)

def reloaded (w : World) : PinMap := (PinStore.new .ok w.store.path w.files).pins

def InSync (w : World) : Prop := w.reloaded = w.store.pins

theorem opened_inSync (path : Option Path) (files : Files) :
    (opened .ok path files).InSync := rfl

variable {path : Path}

theorem reloaded_eq (hp : w.store.path = some path) : w.reloaded = load .ok (w.files path) := by
  simp [reloaded, PinStore.new, hp]

theorem commit_ok_inSync (hp : w.store.path = some path) : (w.commit .ok pins).1.InSync := by
  have hs : { w.store with pins := pins }.path = some path := hp
  have hfile : (w.commit .ok pins).1.files path = some (dump pins) := save_ok_file hs
  rw [InSync, reloaded_eq (w := (w.commit .ok pins).1) hp, hfile, load_dump, commit_pins]

theorem commit_failed_reloaded (hp : w.store.path = some path) (ht : path.tmpFile ≠ path)
    (hio : io ≠ .ok) : (w.commit io pins).1.reloaded = w.reloaded := by
  have hs : { w.store with pins := pins }.path = some path := hp
  have hfile : (w.commit io pins).1.files path = w.files path := save_failed_file hs ht hio
  rw [reloaded_eq (w := (w.commit io pins).1) hp, hfile, reloaded_eq hp]

theorem commit_reloaded (io : SaveIo) (pins : PinMap) (hp : w.store.path = some path) (ht : path.tmpFile ≠ path) :
    (w.commit io pins).1.reloaded = pins ∨ (w.commit io pins).1.reloaded = w.reloaded := by
  by_cases hio : io = .ok
  · subst hio
    exact .inl (commit_ok_inSync hp)
  · exact .inr (commit_failed_reloaded hp ht hio)

end World

namespace PinCall

variable {lib : CidLib} {call : PinCall} {pins pins' : PinMap} {k cidStr pinType : String}

theorem saves_addPin (h : (addPin cidStr pinType).saves lib pins = some pins') :
    (pinType = "direct" ∨ pinType = "recursive") ∧ pins.get? cidStr ≠ some (.ofType pinType) ∧
      pins.get? cidStr ≠ some (.ofType "recursive") ∧ pins' = pins.set cidStr (.ofType pinType) := by
  simp only [saves] at h
  split at h
  · contradiction
  · split_ifs at h with ht
    have ht : pinType = "direct" ∨ pinType = "recursive" := by tauto
    cases hg : pins.get? cidStr with
    | none => simp_all
    | some existing =>
      simp only [hg] at h
      split_ifs at h with hsame hdown
      have hne : ¬existing = .ofType pinType := fun he => hsame (PinValue.isType_iff.mpr he)
      refine ⟨ht, by simpa using hne, ?_, by simpa using h.symm⟩
      intro he
      have he : existing = .ofType "recursive" := Option.some.inj he
      rcases ht with rfl | rfl
      · exact hdown ⟨PinValue.isType_iff.mpr he, rfl⟩
      · exact hne he

theorem saves_removePin (h : (removePin cidStr).saves lib pins = some pins') :
    pins.get? cidStr ≠ none ∧ pins' = pins.erase cidStr := by
  obtain ⟨v, hv, rfl⟩ := Option.map_eq_some_iff.mp h
  simp [hv]

theorem saves_ne (h : call.saves lib pins = some pins') : pins' ≠ pins := by
  rintro rfl
  cases call with
  | removePin cidStr =>
    obtain ⟨hg, he⟩ := saves_removePin h
    rw [he] at hg
    simp at hg
  | addPin cidStr pinType =>
    obtain ⟨-, hg, -, he⟩ := saves_addPin h
    rw [he] at hg
    simp at hg

theorem saves_keeps (h : call.saves lib pins = some pins') (hk : k ∈ pins.keys)
    (hc : call ≠ .removePin k) : k ∈ pins'.keys := by
  cases call with
  | removePin cidStr =>
    obtain ⟨-, rfl⟩ := saves_removePin h
    exact (Dict.mem_keys_erase ..).mpr ⟨fun he => hc (by rw [he]), hk⟩
  | addPin cidStr pinType =>
    obtain ⟨-, -, -, rfl⟩ := saves_addPin h
    exact (Dict.mem_keys_set ..).mpr (.inr hk)

end PinCall

namespace World

variable {lib : CidLib} {w : World} {path : Path}

def SavesSucceed (lib : CidLib) (w : World) : List (PinCall × SaveIo) → Prop :=
  Runs.Always fun done c => c.1.saves lib (w.after lib done).store.pins ≠ none → c.2 = .ok

def Durable (lib : CidLib) (w : World) : List (PinCall × SaveIo) → Prop :=
  Runs.Always fun done c => ((w.after lib done).exec lib c.1 c.2).2 = .ok () →
    (w.after lib (done ++ [c])).InSync

theorem exec_inSync {c : PinCall × SaveIo} (hp : w.store.path = some path) (h : w.InSync)
    (hc : c.1.saves lib w.store.pins ≠ none → c.2 = .ok) : (w.exec lib c.1 c.2).1.InSync := by
  cases hs : c.1.saves lib w.store.pins with
  | none => rwa [exec_idle hs]
  | some pins =>
    rw [exec_saves hs, hc (by simp [hs])]
    exact commit_ok_inSync hp

theorem exec_not_inSync {c : PinCall × SaveIo} (hp : w.store.path = some path)
    (ht : path.tmpFile ≠ path) (h : w.InSync) (hs : c.1.saves lib w.store.pins ≠ none)
    (hio : c.2 ≠ .ok) : ¬(w.exec lib c.1 c.2).1.InSync := by
  obtain ⟨pins, hs⟩ := Option.ne_none_iff_exists'.mp hs
  rw [exec_saves hs, InSync, commit_failed_reloaded hp ht hio, commit_pins, h]
  exact (PinCall.saves_ne hs).symm

theorem exec_returns {c : PinCall × SaveIo} (hp : w.store.path = some path)
    (hs : c.1.saves lib w.store.pins ≠ none) (hm : ∀ e, c.2 ≠ .mkdirFails e) :
    (w.exec lib c.1 c.2).2 = .ok () := by
  obtain ⟨pins, hs⟩ := Option.ne_none_iff_exists'.mp hs
  rw [exec_saves hs]
  have hstore : ({ w.store with pins := pins } : PinStore).path = some path := hp
  exact save_failed_returns hstore hm

theorem after_inSync {cs : List (PinCall × SaveIo)} (hp : w.store.path = some path) (h : w.InSync)
    (hcs : SavesSucceed lib w cs) : (w.after lib cs).InSync := by
  induction cs using List.reverseRecOn with
  | nil => exact h
  | append_singleton cs c ih =>
    obtain ⟨hcs, hc⟩ := Runs.always_append_singleton.mp hcs
    rw [after_append, after_single]
    exact exec_inSync (by rw [after_path, hp]) (ih hcs) hc

theorem durable_of_savesSucceed {cs : List (PinCall × SaveIo)} (hp : w.store.path = some path)
    (h : w.InSync) (hcs : SavesSucceed lib w cs) : Durable lib w cs := by
  induction cs using List.reverseRecOn with
  | nil => exact Runs.always_nil
  | append_singleton cs c ih =>
    have hall := Runs.always_append_singleton.mp hcs
    exact Runs.always_append_singleton.mpr ⟨ih hall.1, fun _ => after_inSync hp h hcs⟩

theorem savesSucceed_of_durable {cs : List (PinCall × SaveIo)} (hp : w.store.path = some path)
    (ht : path.tmpFile ≠ path) (h : w.InSync) (hm : ∀ c ∈ cs, ∀ e, c.2 ≠ .mkdirFails e)
    (hd : Durable lib w cs) : SavesSucceed lib w cs := by
  induction cs using List.reverseRecOn with
  | nil => exact Runs.always_nil
  | append_singleton cs c ih =>
    obtain ⟨hds, hdc⟩ := Runs.always_append_singleton.mp hd
    have hcs := ih (fun d hc => hm d (by simp [hc])) hds
    refine Runs.always_append_singleton.mpr ⟨hcs, fun hs => ?_⟩
    have hp' : (w.after lib cs).store.path = some path := by rw [after_path, hp]
    by_contra hio
    have hsync := hdc (exec_returns hp' hs (hm c (by simp)))
    rw [after_append, after_single] at hsync
    exact exec_not_inSync hp' ht (after_inSync hp h hcs) hs hio hsync

/-- The second half leaves out a failing `mkdir`, which makes the call raise. -/
theorem durable_iff_savesSucceed (lib : CidLib) (path : Path) (files : Files)
    (cs : List (PinCall × SaveIo)) :
    (SavesSucceed lib (opened .ok (some path) files) cs →
      Durable lib (opened .ok (some path) files) cs) ∧
    (path.tmpFile ≠ path → (∀ c ∈ cs, ∀ e, c.2 ≠ .mkdirFails e) →
      Durable lib (opened .ok (some path) files) cs →
      SavesSucceed lib (opened .ok (some path) files) cs) :=
  ⟨durable_of_savesSucceed rfl (opened_inSync _ _),
    fun ht hm hd => savesSucceed_of_durable rfl ht (opened_inSync _ _) hm hd⟩

def rawLib : CidLib := .ofTable [.rawA, .rawB]

theorem durable_two_pins : Durable rawLib (opened .ok (some Path.pinsJson) (fun _ => none))
    [(.addPin KnownCid.rawA.str "recursive", .ok), (.addPin KnownCid.rawB.str "direct", .ok)] := by
  refine (durable_iff_savesSucceed rawLib Path.pinsJson _ _).1 ?_
  exact Runs.always_append_singleton.mpr
    ⟨Runs.always_append_singleton.mpr ⟨Runs.always_nil, fun _ => rfl⟩, fun _ => rfl⟩

/-- The disk is full: `fsync` raises, and the temporary file is removed. -/
def fullDisk : SaveIo := .writeFails none true

theorem durable_fails : ¬∀ (lib : CidLib) (path : Path) (files : Files)
    (cs : List (PinCall × SaveIo)), Durable lib (opened .ok (some path) files) cs := by
  intro hall
  have hd := hall rawLib Path.pinsJson (fun _ => none) [(.addPin KnownCid.rawA.str "recursive", fullDisk)]
  have hs := hd [] _ [] rfl rfl
  have hkeys := congrArg Dict.keys hs
  exact absurd hkeys (by decide)

end World

end IpfsLite
