import IpfsLite.FileFetch
import IpfsLite.Lib.Runs

/-!
The temporary files of `add_file_from_stream`, `dag/export` and `dag/import`, with any number of requests in
progress, each of which may be cancelled wherever it waits. A file is taken to have on disk what has been
written to it: it is read only after it is closed.
-/

namespace IpfsLite.TempFiles

open Function Runs

inductive Result
  | added (name cid : String) (size : ℕ)
  | sent
  | imported (roots : List String)
  | badRequest (detail : String)
  | raised (e : PyError)
  | cancelled

inductive Pc
  | idle
  | uploading (name path : String) (maxSize : ℤ) (size : ℕ)
  | adding (name path : String) (size : ℕ)
  | exporting (path : String)
  | sending (path : String)
  | reading
  | importing (path : String)
  | finished (r : Result)

def Pc.path? : Pc → Option String
  | .uploading _ path _ _ | .adding _ path _ | .exporting path | .sending path | .importing path => some path
  | _ => none

inductive Event (κ : Type*)
  | addFile (k : κ) (name : String) (maxSize : Option ℤ) (path : String)
  | chunk (k : κ) (data : Bytes)
  | uploadRaises (k : κ) (e : PyError)
  | endOfUpload (k : κ)
  | added (k : κ) (r : Except PyError String)
  | dagExport (k : κ) (path : String)
  | exported (k : κ) (r : Except PyError Bytes)
  | sent (k : κ)
  | dagImport (k : κ)
  | carRead (k : κ) (data : Bytes) (path : String) (writeRaises : Option PyError)
  | imported (k : κ) (r : Except PyError (List String))
  | cancel (k : κ)

/-- `abandoned` is history: the files that no request is going to remove. -/
structure State (κ : Type*) where
  files : Dict String Bytes
  reqs : κ → Pc
  abandoned : List String

namespace State

variable {κ : Type*} [DecidableEq κ]

def initial (files : Dict String Bytes) : State κ := ⟨files, fun _ => .idle, []⟩

def go (s : State κ) (k : κ) (pc : Pc) : State κ := { s with reqs := update s.reqs k pc }

def mkstemp (s : State κ) (path : String) (data : Bytes) : State κ := { s with files := s.files.set path data }

def finish (s : State κ) (k : κ) (path : String) (r : Result) : State κ :=
  { s.go k (.finished r) with files := s.files.erase path }

def abandon (s : State κ) (k : κ) (path : String) : State κ :=
  { s.go k (.finished .cancelled) with abandoned := path :: s.abandoned }

def write (s : State κ) (path : String) (chunk : Bytes) : State κ :=
  { s with files := s.files.set path ((s.files.get? path).getD [] ++ chunk) }

def uploadTooLarge (maxSize : ℤ) : PyError := ⟨.payloadTooLargeError, s!"upload exceeded {maxSize} bytes"⟩

/-- `cancel` is what a cancelled request does: only the `except Exception` of the export does not see it. -/
def step (maxUploadSize : ℤ) (s : State κ) : Event κ → Option (State κ)
  | .addFile k name maxSize path =>
    match s.reqs k with
    | .idle =>
      if path ∈ s.files.keys then none
      else some ((s.mkstemp path []).go k (.uploading name path (Files.effectiveMaxSize maxSize maxUploadSize) 0))
    | _ => none
  | .chunk k data =>
    match s.reqs k with
    | .uploading name path maxSize size =>
      let size := size + data.length
      if maxSize < size then some (s.finish k path (.raised (uploadTooLarge maxSize)))
      else some ((s.write path data).go k (.uploading name path maxSize size))
    | _ => none
  | .uploadRaises k e =>
    match s.reqs k with
    | .uploading _ path _ _ => some (s.finish k path (.raised e))
    | _ => none
  | .endOfUpload k =>
    match s.reqs k with
    | .uploading name path _ size => some (s.go k (.adding name path size))
    | _ => none
  | .added k r =>
    match s.reqs k with
    | .adding name path size =>
      some (s.finish k path (match r with
        | .error e => .raised e
        | .ok cid => .added name cid size))
    | _ => none
  | .dagExport k path =>
    match s.reqs k with
    | .idle => if path ∈ s.files.keys then none else some ((s.mkstemp path []).go k (.exporting path))
    | _ => none
  | .exported k r =>
    match s.reqs k with
    | .exporting path =>
      match r with
      | .error e => some (s.finish k path (.raised e))
      | .ok archive => some { s.go k (.sending path) with files := s.files.set path archive }
    | _ => none
  | .sent k =>
    match s.reqs k with
    | .sending path => some (s.finish k path .sent)
    | _ => none
  | .dagImport k =>
    match s.reqs k with
    | .idle => some (s.go k .reading)
    | _ => none
  | .carRead k data path writeRaises =>
    match s.reqs k with
    | .reading =>
      if data = [] then some (s.go k (.finished (.badRequest "Empty CAR payload")))
      else if path ∈ s.files.keys then none
      else match writeRaises with
        | some e => some (((s.mkstemp path []).go k (.importing path)).finish k path (.raised e))
        | none => some ((s.mkstemp path data).go k (.importing path))
    | _ => none
  | .imported k r =>
    match s.reqs k with
    | .importing path =>
      some (s.finish k path (match r with
        | .error e => .raised e
        | .ok roots => .imported roots))
    | _ => none
  | .cancel k =>
    match s.reqs k with
    | .uploading _ path _ _ | .adding _ path _ | .importing path => some (s.finish k path .cancelled)
    | .exporting path | .sending path => some (s.abandon k path)
    | .reading => some (s.go k (.finished .cancelled))
    | _ => none

def Next (maxUploadSize : ℤ) (s : State κ) (e : Event κ) (s' : State κ) : Prop := s.step maxUploadSize e = some s'

end State

def Event.actor {κ : Type*} : Event κ → κ
  | .addFile k .. | .chunk k _ | .uploadRaises k _ | .endOfUpload k | .added k _ | .dagExport k _ | .exported k _
  | .sent k | .dagImport k | .carRead k .. | .imported k _ | .cancel k => k

section Safety

variable {κ : Type*} [DecidableEq κ] {maxUploadSize : ℤ} {F : Dict String Bytes} {s s' : State κ} {e : Event κ}
  {es : List (Event κ)} {k k' : κ} {path : String}

inductive Move (e : Event κ) (s : State κ) : State κ → Prop
  | stays {pc : Pc} (h : pc.path? = (s.reqs e.actor).path?) : Move e s (s.go e.actor pc)
  | opens {path : String} {data : Bytes} {pc : Pc} (hk : (s.reqs e.actor).path? = none)
      (hfresh : path ∉ s.files.keys) (hpc : pc.path? = some path) : Move e s ((s.mkstemp path data).go e.actor pc)
  | writes {path : String} {data : Bytes} {pc : Pc} (hk : (s.reqs e.actor).path? = some path)
      (hpc : pc.path? = some path) : Move e s ((s.mkstemp path data).go e.actor pc)
  | closes {path : String} {r : Result} (hk : (s.reqs e.actor).path? = some path) :
      Move e s (s.finish e.actor path r)
  | passes {path : String} {data : Bytes} {pc : Pc} {r : Result} (hk : (s.reqs e.actor).path? = none)
      (hfresh : path ∉ s.files.keys) (hpc : pc.path? = some path) :
      Move e s (((s.mkstemp path data).go e.actor pc).finish e.actor path r)
  | abandons {k : κ} {path : String} (he : e = .cancel k)
      (hk : s.reqs k = .exporting path ∨ s.reqs k = .sending path) : Move e s (s.abandon k path)

@[simp] theorem go_self (s : State κ) (k : κ) (pc : Pc) : (s.go k pc).reqs k = pc := update_self ..

theorem go_of_ne (s : State κ) (h : k' ≠ k) (pc : Pc) : (s.go k pc).reqs k' = s.reqs k' := update_of_ne h ..

theorem step_move (h : State.Next maxUploadSize s e s') : Move e s s' := by
  unfold State.Next at h
  cases e with
  | addFile k name maxSize path =>
    simp only [State.step] at h
    split at h
    · rename_i hidle
      split_ifs at h with hfresh
      obtain rfl := Option.some.inj h
      exact .opens (congrArg Pc.path? hidle) hfresh rfl
    · contradiction
  | chunk k data =>
    simp only [State.step] at h
    split at h
    · rename_i hactive
      have hk : (s.reqs k).path? = some _ := congrArg Pc.path? hactive
      split_ifs at h
      · obtain rfl := Option.some.inj h
        exact .closes hk
      · obtain rfl := Option.some.inj h
        exact .writes hk rfl
    · contradiction
  | uploadRaises k e =>
    simp only [State.step] at h
    split at h
    · rename_i hactive
      obtain rfl := Option.some.inj h
      exact .closes (congrArg Pc.path? hactive)
    · contradiction
  | endOfUpload k =>
    simp only [State.step] at h
    split at h
    · rename_i hactive
      obtain rfl := Option.some.inj h
      exact .stays (congrArg Pc.path? hactive).symm
    · contradiction
  | added k r =>
    simp only [State.step] at h
    split at h
    · rename_i hactive
      obtain rfl := Option.some.inj h
      exact .closes (congrArg Pc.path? hactive)
    · contradiction
  | dagExport k path =>
    simp only [State.step] at h
    split at h
    · rename_i hidle
      split_ifs at h with hfresh
      obtain rfl := Option.some.inj h
      exact .opens (congrArg Pc.path? hidle) hfresh rfl
    · contradiction
  | exported k r =>
    simp only [State.step] at h
    split at h
    · rename_i hactive
      have hk : (s.reqs k).path? = some _ := congrArg Pc.path? hactive
      cases r with
      | error e =>
        obtain rfl := Option.some.inj h
        exact .closes hk
      | ok archive =>
        obtain rfl := Option.some.inj h
        exact .writes hk rfl
    · contradiction
  | sent k =>
    simp only [State.step] at h
    split at h
    · rename_i hactive
      obtain rfl := Option.some.inj h
      exact .closes (congrArg Pc.path? hactive)
    · contradiction
  | dagImport k =>
    simp only [State.step] at h
    split at h
    · rename_i hidle
      obtain rfl := Option.some.inj h
      exact .stays (congrArg Pc.path? hidle).symm
    · contradiction
  | carRead k data path writeRaises =>
    simp only [State.step] at h
    split at h
    · rename_i hreading
      have hk : (s.reqs k).path? = none := congrArg Pc.path? hreading
      split_ifs at h with hempty hfresh
      · obtain rfl := Option.some.inj h
        exact .stays hk.symm
      · cases writeRaises with
        | some e =>
          obtain rfl := Option.some.inj h
          exact .passes hk hfresh rfl
        | none =>
          obtain rfl := Option.some.inj h
          exact .opens hk hfresh rfl
    · contradiction
  | imported k r =>
    simp only [State.step] at h
    split at h
    · rename_i hactive
      obtain rfl := Option.some.inj h
      exact .closes (congrArg Pc.path? hactive)
    · contradiction
  | cancel k =>
    simp only [State.step] at h
    split at h
    all_goals rename_i hactive
    · obtain rfl := Option.some.inj h
      exact .closes (congrArg Pc.path? hactive)
    · obtain rfl := Option.some.inj h
      exact .closes (congrArg Pc.path? hactive)
    · obtain rfl := Option.some.inj h
      exact .closes (congrArg Pc.path? hactive)
    · obtain rfl := Option.some.inj h
      exact .abandons rfl (.inl hactive)
    · obtain rfl := Option.some.inj h
      exact .abandons rfl (.inr hactive)
    · obtain rfl := Option.some.inj h
      exact .stays (congrArg Pc.path? hactive).symm
    · contradiction

/-- Besides the files that were there at the start, there are those of the requests in progress and those that
were abandoned, and no two requests share one. -/
structure Accounted (F : Dict String Bytes) (s : State κ) : Prop where
  kept : ∀ p c, F.get? p = some c → s.files.get? p = some c
  owned : ∀ k p, (s.reqs k).path? = some p → p ∈ s.files.keys ∧ p ∉ F.keys ∧ p ∉ s.abandoned
  alone : ∀ k k' p, (s.reqs k).path? = some p → (s.reqs k').path? = some p → k = k'
  left : ∀ p ∈ s.abandoned, p ∈ s.files.keys ∧ p ∉ F.keys
  files : ∀ p ∈ s.files.keys, p ∈ F.keys ∨ (∃ k, (s.reqs k).path? = some p) ∨ p ∈ s.abandoned

theorem go_path (s : State κ) (k k' : κ) (pc : Pc) :
    ((s.go k pc).reqs k').path? = if k' = k then pc.path? else (s.reqs k').path? := by
  split_ifs with hk
  · rw [hk, go_self]
  · rw [go_of_ne s hk]

theorem Accounted.stays (h : Accounted F s) {pc : Pc} (hpc : pc.path? = (s.reqs k).path?) :
    Accounted F (s.go k pc) := by
  have hpath (k' : κ) : ((s.go k pc).reqs k').path? = (s.reqs k').path? := by
    rw [go_path]
    split_ifs with hk
    · rw [hpc, hk]
    · rfl
  refine ⟨h.kept, fun k' p hp => h.owned k' p (hpath k' ▸ hp), fun k₁ k₂ p h₁ h₂ =>
    h.alone k₁ k₂ p (hpath k₁ ▸ h₁) (hpath k₂ ▸ h₂), h.left, fun p hp => ?_⟩
  refine (h.files p hp).imp_right (Or.imp_left fun ⟨k', hk'⟩ => ⟨k', (hpath k').trans hk'⟩)

theorem Accounted.opens (h : Accounted F s) {data : Bytes} {pc : Pc} (hk : (s.reqs k).path? = none)
    (hfresh : path ∉ s.files.keys) (hpc : pc.path? = some path) : Accounted F ((s.mkstemp path data).go k pc) := by
  have hnew : path ∉ F.keys := by
    intro hmem
    obtain ⟨c, hc⟩ := Dict.mem_keys.mp hmem
    exact hfresh (Dict.mem_keys.mpr ⟨c, h.kept path c hc⟩)
  have hkeys (p : String) : p ∈ (s.files.set path data).keys ↔ p = path ∨ p ∈ s.files.keys := Dict.mem_keys_set ..
  have hother {k' : κ} {p : String} (hp : (((s.mkstemp path data).go k pc).reqs k').path? = some p) :
      k' = k ∧ p = path ∨ k' ≠ k ∧ (s.reqs k').path? = some p := by
    rw [go_path] at hp
    split_ifs at hp with hk'
    · exact .inl ⟨hk', Option.some.inj (hp.symm.trans hpc)⟩
    · exact .inr ⟨hk', hp⟩
  refine ⟨fun p c hp => ?_, fun k' p hp => ?_, fun k₁ k₂ p h₁ h₂ => ?_, fun p hp => ?_, fun p hp => ?_⟩
  · have hne : p ≠ path := by
      rintro rfl
      exact hnew (Dict.mem_keys.mpr ⟨c, hp⟩)
    exact (Dict.get?_set ..).trans ((if_neg hne).trans (h.kept p c hp))
  · rcases hother hp with ⟨-, rfl⟩ | ⟨-, hp⟩
    · exact ⟨(hkeys p).mpr (.inl rfl), hnew, fun hleft => hfresh (h.left p hleft).1⟩
    · obtain ⟨hmem, hF, hleft⟩ := h.owned k' p hp
      exact ⟨(hkeys p).mpr (.inr hmem), hF, hleft⟩
  · rcases hother h₁ with ⟨hk₁, hp₁⟩ | ⟨-, h₁'⟩
    · rcases hother h₂ with ⟨hk₂, -⟩ | ⟨-, h₂'⟩
      · rw [hk₁, hk₂]
      · exact absurd (hp₁ ▸ (h.owned k₂ p h₂').1) hfresh
    · rcases hother h₂ with ⟨-, hp₂⟩ | ⟨-, h₂'⟩
      · exact absurd (hp₂ ▸ (h.owned k₁ p h₁').1) hfresh
      · exact h.alone k₁ k₂ p h₁' h₂'
  · obtain ⟨hmem, hF⟩ := h.left p hp
    exact ⟨(hkeys p).mpr (.inr hmem), hF⟩
  · rcases (hkeys p).mp hp with rfl | hp
    · exact .inr (.inl ⟨k, by rw [go_self, hpc]⟩)
    · refine (h.files p hp).imp_right (Or.imp_left fun ⟨k', hk'⟩ => ⟨k', ?_⟩)
      have hne : k' ≠ k := by
        rintro rfl
        rw [hk] at hk'
        contradiction
      rw [go_path, if_neg hne]
      exact hk'

omit [DecidableEq κ] in
theorem Accounted.writes (h : Accounted F s) {data : Bytes} (hk : (s.reqs k).path? = some path) :
    Accounted F (s.mkstemp path data) := by
  obtain ⟨hmem, hF, hleft⟩ := h.owned k path hk
  have hkeys (p : String) : p ∈ (s.files.set path data).keys ↔ p ∈ s.files.keys :=
    (Dict.mem_keys_set ..).trans (or_iff_right_of_imp fun hp => hp ▸ hmem)
  refine ⟨fun p c hp => ?_, fun k' p hp => ?_, h.alone, fun p hp => ?_, fun p hp => h.files p ((hkeys p).mp hp)⟩
  · have hne : p ≠ path := by
      rintro rfl
      exact hF (Dict.mem_keys.mpr ⟨c, hp⟩)
    exact (Dict.get?_set ..).trans ((if_neg hne).trans (h.kept p c hp))
  · exact ⟨(hkeys p).mpr (h.owned k' p hp).1, (h.owned k' p hp).2⟩
  · exact ⟨(hkeys p).mpr (h.left p hp).1, (h.left p hp).2⟩

theorem Accounted.closes (h : Accounted F s) {r : Result} (hk : (s.reqs k).path? = some path) :
    Accounted F (s.finish k path r) := by
  obtain ⟨hmem, hF, hleft⟩ := h.owned k path hk
  have hkeys (p : String) : p ∈ (s.files.erase path).keys ↔ p ∈ s.files.keys ∧ p ≠ path := by
    rw [Dict.mem_keys_erase, and_comm]
  have hother {k' : κ} {p : String} (hp : ((s.finish k path r).reqs k').path? = some p) :
      p ≠ path ∧ (s.reqs k').path? = some p := by
    have hpath := go_path s k k' (.finished r)
    rw [show (s.finish k path r).reqs = (s.go k (.finished r)).reqs from rfl, hpath] at hp
    split_ifs at hp with hk'
    · contradiction
    · refine ⟨?_, hp⟩
      rintro rfl
      exact hk' (h.alone k' k p hp hk)
  refine ⟨fun p c hp => ?_, fun k' p hp => ?_, fun k₁ k₂ p h₁ h₂ => ?_, fun p hp => ?_, fun p hp => ?_⟩
  · have hne : p ≠ path := by
      rintro rfl
      exact hF (Dict.mem_keys.mpr ⟨c, hp⟩)
    exact (Dict.get?_erase ..).trans ((if_neg hne).trans (h.kept p c hp))
  · obtain ⟨hne, hp⟩ := hother hp
    exact ⟨(hkeys p).mpr ⟨(h.owned k' p hp).1, hne⟩, (h.owned k' p hp).2⟩
  · exact h.alone k₁ k₂ p (hother h₁).2 (hother h₂).2
  · exact ⟨(hkeys p).mpr ⟨(h.left p hp).1, fun heq => hleft (heq ▸ hp)⟩, (h.left p hp).2⟩
  · obtain ⟨hp, hne⟩ := (hkeys p).mp hp
    refine (h.files p hp).imp_right (Or.imp_left fun ⟨k', hk'⟩ => ⟨k', ?_⟩)
    have hk'k : k' ≠ k := by
      rintro rfl
      exact hne (Option.some.inj (hk'.symm.trans hk))
    exact (congrArg Pc.path? (go_of_ne s hk'k _)).trans hk'

theorem Accounted.abandons (h : Accounted F s) (hk : (s.reqs k).path? = some path) :
    Accounted F (s.abandon k path) := by
  obtain ⟨hmem, hF, hleft⟩ := h.owned k path hk
  have hother {k' : κ} {p : String} (hp : ((s.abandon k path).reqs k').path? = some p) :
      p ≠ path ∧ (s.reqs k').path? = some p := by
    have hpath := go_path s k k' (.finished .cancelled)
    rw [show (s.abandon k path).reqs = (s.go k (.finished .cancelled)).reqs from rfl, hpath] at hp
    split_ifs at hp with hk'
    · contradiction
    · refine ⟨?_, hp⟩
      rintro rfl
      exact hk' (h.alone k' k p hp hk)
  refine ⟨h.kept, fun k' p hp => ?_, fun k₁ k₂ p h₁ h₂ => ?_, fun p hp => ?_, fun p hp => ?_⟩
  · obtain ⟨hne, hp⟩ := hother hp
    obtain ⟨hmem', hF', hleft'⟩ := h.owned k' p hp
    exact ⟨hmem', hF', List.not_mem_cons_of_ne_of_not_mem hne hleft'⟩
  · exact h.alone k₁ k₂ p (hother h₁).2 (hother h₂).2
  · rcases List.mem_cons.mp hp with rfl | hp
    · exact ⟨hmem, hF⟩
    · exact h.left p hp
  · rcases h.files p hp with hp | ⟨k', hk'⟩ | hp
    · exact .inl hp
    · by_cases hk'k : k' = k
      · subst hk'k
        obtain rfl := Option.some.inj (hk.symm.trans hk')
        exact .inr (.inr List.mem_cons_self)
      · exact .inr (.inl ⟨k', (congrArg Pc.path? (go_of_ne s hk'k _)).trans hk'⟩)
    · exact .inr (.inr (List.mem_cons_of_mem _ hp))

theorem Accounted.step (h : Accounted F s) (hstep : State.Next maxUploadSize s e s') : Accounted F s' := by
  cases step_move hstep with
  | stays hpc => exact h.stays hpc
  | opens hk hfresh hpc => exact h.opens hk hfresh hpc
  | writes hk hpc => exact (h.writes hk).stays (hpc.trans hk.symm)
  | closes hk => exact h.closes hk
  | passes hk hfresh hpc => exact (h.opens hk hfresh hpc).closes (by rw [go_self, hpc])
  | abandons _ hk => exact h.abandons (hk.elim (congrArg Pc.path?) (congrArg Pc.path?))

omit [DecidableEq κ] in
theorem accounted_initial (F : Dict String Bytes) : Accounted F (.initial F : State κ) := by
  refine ⟨fun _ _ h => h, fun k p hp => ?_, fun k k' p hp => ?_, fun p hp => absurd hp List.not_mem_nil,
    fun p hp => .inl hp⟩
  · contradiction
  · contradiction

theorem Accounted.others (h : Accounted F s) (hstep : State.Next maxUploadSize s e s') (hne : k ≠ e.actor) :
    s'.reqs k = s.reqs k ∧ ∀ p, (s.reqs k).path? = some p → s'.files.get? p = s.files.get? p := by
  have hset {path p : String} (data : Bytes) (hp : p ≠ path) : (s.files.set path data).get? p = s.files.get? p :=
    (Dict.get?_set ..).trans (if_neg hp)
  cases step_move hstep with
  | stays => exact ⟨go_of_ne s hne _, fun _ _ => rfl⟩
  | opens hk hfresh =>
    refine ⟨go_of_ne _ hne _, fun p hp => hset _ ?_⟩
    rintro rfl
    exact hfresh (h.owned k p hp).1
  | writes hk =>
    refine ⟨go_of_ne _ hne _, fun p hp => hset _ ?_⟩
    rintro rfl
    exact hne (h.alone k e.actor p hp hk)
  | closes hk =>
    refine ⟨go_of_ne s hne _, fun p hp => (Dict.get?_erase ..).trans (if_neg ?_)⟩
    rintro rfl
    exact hne (h.alone k e.actor p hp hk)
  | @passes path data pc r hk hfresh hpc =>
    have hne' : ((s.mkstemp path data).go e.actor pc).reqs k = s.reqs k := go_of_ne _ hne _
    refine ⟨(go_of_ne _ hne _).trans hne', fun p hp => ?_⟩
    have hp' : p ≠ path := by
      rintro rfl
      exact hfresh (h.owned k p hp).1
    exact (Dict.get?_erase ..).trans ((if_neg hp').trans (hset data hp'))
  | abandons he =>
    subst he
    exact ⟨go_of_ne s hne _, fun _ _ => rfl⟩

def received (es : List (Event κ)) (k : κ) : Bytes :=
  es.flatMap fun
    | .chunk k' data => if k' = k then data else []
    | _ => []

theorem received_snoc (es : List (Event κ)) (e : Event κ) (k : κ) :
    received (es ++ [e]) k = received es k ++ received [e] k := List.flatMap_append ..

theorem received_other (hne : k ≠ e.actor) : received [e] k = [] := by
  cases e with
  | chunk k' data =>
    have hk : k' ≠ k := Ne.symm hne
    simp [received, hk]
  | _ => rfl

structure Uploaded (maxUploadSize : ℤ) (es : List (Event κ)) (s : State κ) (k : κ) (name path : String) (maxSize : ℤ)
    (size : ℕ) : Prop where
  file : s.files.get? path = some (received es k)
  length : size = (received es k).length
  limit : size = 0 ∨ (size : ℤ) ≤ maxSize
  request : ∃ m, .addFile k name m path ∈ es ∧ maxSize = Files.effectiveMaxSize m maxUploadSize

def Filled (maxUploadSize : ℤ) (es : List (Event κ)) (s : State κ) (k : κ) : Prop :=
  match s.reqs k with
  | .idle => received es k = []
  | .uploading name path maxSize size => Uploaded maxUploadSize es s k name path maxSize size
  | .adding name path size => ∃ maxSize, Uploaded maxUploadSize es s k name path maxSize size
  | .exporting path => .dagExport k path ∈ es
  | .sending path => .dagExport k path ∈ es ∧
      ∃ archive, .exported k (.ok archive) ∈ es ∧ s.files.get? path = some archive
  | .importing path => ∃ data, .carRead k data path none ∈ es ∧ s.files.get? path = some data
  | .reading | .finished _ => True

theorem Uploaded.later {name : String} {maxSize : ℤ} {size : ℕ}
    (h : Uploaded maxUploadSize es s k name path maxSize size) (hfile : s'.files.get? path = s.files.get? path)
    (hnone : received [e] k = []) : Uploaded maxUploadSize (es ++ [e]) s' k name path maxSize size := by
  have hsame : received (es ++ [e]) k = received es k := by rw [received_snoc, hnone, List.append_nil]
  obtain ⟨m, hm, hmax⟩ := h.request
  exact ⟨by rw [hfile, hsame, h.file], by rw [hsame, h.length], h.limit, m, List.mem_append_left _ hm, hmax⟩

theorem Filled.other (h : Filled maxUploadSize es s k) (hacc : Accounted F s)
    (hstep : State.Next maxUploadSize s e s') (hne : k ≠ e.actor) : Filled maxUploadSize (es ++ [e]) s' k := by
  obtain ⟨hreq, hfiles⟩ := hacc.others hstep hne
  have hnone := received_other hne
  unfold Filled at h ⊢
  rw [hreq]
  split at h
  all_goals rename_i hk
  · rw [received_snoc, hnone, h, List.append_nil]
  · exact h.later (hfiles _ (by rw [hk]; rfl)) hnone
  · obtain ⟨maxSize, h⟩ := h
    exact ⟨maxSize, h.later (hfiles _ (by rw [hk]; rfl)) hnone⟩
  · exact List.mem_append_left _ h
  · obtain ⟨hmem, archive, hexported, hfile⟩ := h
    exact ⟨List.mem_append_left _ hmem, archive, List.mem_append_left _ hexported,
      (hfiles _ (by rw [hk]; rfl)).trans hfile⟩
  · obtain ⟨data, hread, hfile⟩ := h
    exact ⟨data, List.mem_append_left _ hread, (hfiles _ (by rw [hk]; rfl)).trans hfile⟩
  · trivial
  · trivial

theorem filled_finish {r : Result} : Filled maxUploadSize es (s.finish k path r) k := by
  have hk : (s.finish k path r).reqs k = .finished r := go_self s k _
  simp only [Filled, hk]

theorem Filled.self (h : Filled maxUploadSize es s e.actor) (hstep : State.Next maxUploadSize s e s') :
    Filled maxUploadSize (es ++ [e]) s' e.actor := by
  have hlast : e ∈ es ++ [e] := List.mem_append_right _ (List.mem_singleton.mpr rfl)
  unfold State.Next at hstep
  cases e with
  | addFile k name maxSize path =>
    simp only [State.step] at hstep
    split at hstep
    · rename_i hidle
      split_ifs at hstep with hfresh
      obtain rfl := Option.some.inj hstep
      simp only [Filled, Event.actor, hidle] at h
      simp only [Filled, Event.actor, go_self]
      have hnone : received (es ++ [.addFile k name maxSize path]) k = [] := by
        rw [received_snoc, h]
        rfl
      refine ⟨?_, by rw [hnone]; rfl, .inl rfl, maxSize, hlast, rfl⟩
      rw [hnone]
      exact (Dict.get?_set ..).trans (if_pos rfl)
    · contradiction
  | chunk k data =>
    simp only [State.step] at hstep
    split at hstep
    · rename_i name path maxSize size hactive
      simp only [Filled, Event.actor, hactive] at h
      split_ifs at hstep with hlarge
      · obtain rfl := Option.some.inj hstep
        exact filled_finish
      · obtain rfl := Option.some.inj hstep
        simp only [Filled, Event.actor, go_self]
        obtain ⟨m, hm, hmax⟩ := h.request
        have hreceived : received (es ++ [.chunk k data]) k = received es k ++ data := by
          rw [received_snoc]
          simp [received]
        refine ⟨?_, ?_, .inr (by omega), m, List.mem_append_left _ hm, hmax⟩
        · rw [hreceived]
          have hfile : (s.files.get? path).getD [] = received es k := by rw [h.file]; rfl
          refine (Dict.get?_set ..).trans ((if_pos rfl).trans ?_)
          rw [hfile]
        · rw [hreceived, List.length_append, h.length]
    · contradiction
  | uploadRaises k e =>
    simp only [State.step] at hstep
    split at hstep
    · obtain rfl := Option.some.inj hstep
      exact filled_finish
    · contradiction
  | endOfUpload k =>
    simp only [State.step] at hstep
    split at hstep
    · rename_i name path maxSize size hactive
      obtain rfl := Option.some.inj hstep
      simp only [Filled, Event.actor, hactive] at h
      simp only [Filled, Event.actor, go_self]
      exact ⟨maxSize, h.later rfl rfl⟩
    · contradiction
  | added k r =>
    simp only [State.step] at hstep
    split at hstep
    · obtain rfl := Option.some.inj hstep
      exact filled_finish
    · contradiction
  | dagExport k path =>
    simp only [State.step] at hstep
    split at hstep
    · split_ifs at hstep
      obtain rfl := Option.some.inj hstep
      simp only [Filled, Event.actor, go_self]
      exact hlast
    · contradiction
  | exported k r =>
    simp only [State.step] at hstep
    split at hstep
    · rename_i hactive
      simp only [Filled, Event.actor, hactive] at h
      cases r with
      | error e =>
        obtain rfl := Option.some.inj hstep
        exact filled_finish
      | ok archive =>
        obtain rfl := Option.some.inj hstep
        simp only [Filled, Event.actor, State.go, update_self]
        exact ⟨List.mem_append_left _ h, archive, hlast, (Dict.get?_set ..).trans (if_pos rfl)⟩
    · contradiction
  | sent k =>
    simp only [State.step] at hstep
    split at hstep
    · obtain rfl := Option.some.inj hstep
      exact filled_finish
    · contradiction
  | dagImport k =>
    simp only [State.step] at hstep
    split at hstep
    · obtain rfl := Option.some.inj hstep
      simp only [Filled, Event.actor, go_self]
    · contradiction
  | carRead k data path writeRaises =>
    simp only [State.step] at hstep
    split at hstep
    · split_ifs at hstep
      · obtain rfl := Option.some.inj hstep
        simp only [Filled, Event.actor, go_self]
      · cases writeRaises with
        | some e =>
          obtain rfl := Option.some.inj hstep
          exact filled_finish
        | none =>
          obtain rfl := Option.some.inj hstep
          simp only [Filled, Event.actor, go_self]
          exact ⟨data, hlast, (Dict.get?_set ..).trans (if_pos rfl)⟩
    · contradiction
  | imported k r =>
    simp only [State.step] at hstep
    split at hstep
    · obtain rfl := Option.some.inj hstep
      exact filled_finish
    · contradiction
  | cancel k =>
    simp only [State.step] at hstep
    have hfinished {r : Result} {u : State κ} (hu : u.reqs k = .finished r) :
        Filled maxUploadSize (es ++ [.cancel k]) u k := by
      simp only [Filled, hu]
    split at hstep
    all_goals try contradiction
    all_goals
      obtain rfl := Option.some.inj hstep
      exact hfinished (go_self s k _)

def OnlyExports (es : List (Event κ)) (s : State κ) : Prop :=
  ∀ p ∈ s.abandoned, ∃ k, .cancel k ∈ es ∧ .dagExport k p ∈ es

theorem OnlyExports.step (h : OnlyExports es s) (hfilled : ∀ k, Filled maxUploadSize es s k)
    (hstep : State.Next maxUploadSize s e s') : OnlyExports (es ++ [e]) s' := by
  have hearlier (p : String) (hp : p ∈ s.abandoned) :
      ∃ k, .cancel k ∈ es ++ [e] ∧ .dagExport k p ∈ es ++ [e] := by
    obtain ⟨k, hcancel, hexport⟩ := h p hp
    exact ⟨k, List.mem_append_left _ hcancel, List.mem_append_left _ hexport⟩
  cases step_move hstep with
  | @abandons k path he hk =>
    intro p hp
    rcases List.mem_cons.mp hp with rfl | hp
    · have hexport : .dagExport k p ∈ es := by
        have hf := hfilled k
        unfold Filled at hf
        rcases hk with hk | hk
        · simpa only [hk] using hf
        · simp only [hk] at hf
          exact hf.1
      exact ⟨k, List.mem_append_right _ (by rw [he]; exact List.mem_singleton.mpr rfl),
        List.mem_append_left _ hexport⟩
    · exact hearlier p hp
  | _ => exact hearlier

def cancelledExport : List (Event Bool) :=
  [.addFile false "a.txt" none "/tmp/x", .chunk false [1], .dagExport true "/tmp/y.car", .cancel true,
    .chunk false [2], .endOfUpload false]

end Safety

end IpfsLite.TempFiles
