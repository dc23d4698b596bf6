import IpfsLite.PinDurability

/-!
What a `PinStore` is for: a map with one pin type for each CID. The machine of the specification
has CIDs of any type `κ`; `denote` gives the CID of a string, or the exception of `parse_cid`.
-/

namespace IpfsLite

inductive PinType
  | direct
  | recursive
deriving DecidableEq

namespace PinType

def str : PinType → String
  | direct => "direct"
  | recursive => "recursive"

def parse (s : String) : Option PinType :=
  if s = "direct" then some direct else if s = "recursive" then some recursive else none

theorem parse_eq_some {s : String} {t : PinType} : parse s = some t ↔ s = t.str := by
  unfold parse
  split_ifs with hd hr
  · cases t <;> simp [hd, str]
  · cases t <;> simp [hr, str]
  · cases t <;> simp [hd, hr, str]

theorem parse_eq_none {s : String} : parse s = none ↔ s ≠ "direct" ∧ s ≠ "recursive" := by
  unfold parse
  split_ifs with hd hr <;> simp_all

theorem str_inj {t u : PinType} (h : t.str = u.str) : t = u := by
  cases t <;> cases u <;> simp [str] at h ⊢

def value (t : PinType) : PinValue := .ofType t.str

theorem value_isType {t u : PinType} : t.value.isType u.str = true ↔ t = u := by
  rw [PinValue.isType_iff, value, PinValue.ext_iff]
  simp only [PinValue.ofType, Json.str.injEq]
  exact ⟨str_inj, fun h => h ▸ rfl⟩

end PinType

inductive PinOp
  | change (call : PinCall)
  | isPinned (cidStr : String)
  | getPinType (cidStr : String)

inductive PinAnswer
  | done (result : Except PyError Unit)
  | pinned (b : Bool)
  | pinType (v : Option PinValue)

def PinOp.cidStr : PinOp → String
  | .change (.addPin cidStr _) | .change (.removePin cidStr) | .isPinned cidStr | .getPinType cidStr => cidStr

abbrev CidPins (κ : Type*) := κ → Option PinType

namespace CidPins

variable {κ : Type*} [DecidableEq κ] (denote : String → Except PyError κ)

/-- `persisted` is how writing a changed map to disk ends. -/
def addPin (m : CidPins κ) (persisted : Except PyError Unit) (cidStr pinType : String) :
    CidPins κ × Except PyError Unit :=
  match denote cidStr with
  | .error e => (m, .error e)
  | .ok k =>
    match PinType.parse pinType with
    | none => (m, .error ⟨.valueError, s!"Invalid pin type: {pinType}"⟩)
    | some t =>
      if m k = some t then (m, .ok ())
      else if m k = some .recursive then
        (m, .error ⟨.pinError, s!"'{cidStr}' already pinned recursively"⟩)
      else (Function.update m k (some t), persisted)

def removePin (m : CidPins κ) (persisted : Except PyError Unit) (cidStr : String) :
    CidPins κ × Except PyError Unit :=
  match denote cidStr with
  | .error _ => (m, .error ⟨.pinNotFoundError, s!"not pinned or pinned indirectly: {cidStr}"⟩)
  | .ok k =>
    if m k = none then
      (m, .error ⟨.pinNotFoundError, s!"not pinned or pinned indirectly: {cidStr}"⟩)
    else (Function.update m k none, persisted)

def pinOf (m : CidPins κ) (cidStr : String) : Option PinType :=
  match denote cidStr with
  | .error _ => none
  | .ok k => m k

def answer (m : CidPins κ) (op : PinOp) (persisted : Except PyError Unit) : CidPins κ × PinAnswer :=
  match op with
  | .change (.addPin cidStr pinType) => (m.addPin denote persisted cidStr pinType).map id .done
  | .change (.removePin cidStr) => (m.removePin denote persisted cidStr).map id .done
  | .isPinned cidStr => (m, .pinned (m.pinOf denote cidStr).isSome)
  | .getPinType cidStr => (m, .pinType ((m.pinOf denote cidStr).map PinType.value))

def answers (m : CidPins κ) : List (PinOp × Except PyError Unit) → List PinAnswer
  | [] => []
  | (op, persisted) :: ops =>
    let r := m.answer denote op persisted
    r.2 :: answers r.1 ops

end CidPins

namespace PinStore

def saved (path : Option Path) : SaveIo → Except PyError Unit
  | .mkdirFails e => if path.isSome then .error e else .ok ()
  | _ => .ok ()

theorem save_saved (store : PinStore) (io : SaveIo) (files : Files) :
    (store.save io files).2 = saved store.path io := by
  cases hp : store.path with
  | none => cases io <;> simp [save, saved, hp]
  | some path => cases io <;> simp [save, saved, hp]

end PinStore

namespace World

variable (lib : CidLib)

def answer (w : World) (op : PinOp) (io : PinStore.SaveIo) : World × PinAnswer :=
  match op with
  | .change call => (w.exec lib call io).map id .done
  | .isPinned cidStr => (w, .pinned (w.isPinned cidStr))
  | .getPinType cidStr => (w, .pinType (w.getPinType cidStr))

def answers (w : World) : List (PinOp × PinStore.SaveIo) → List PinAnswer
  | [] => []
  | (op, io) :: ops =>
    let r := w.answer lib op io
    r.2 :: answers r.1 ops

end World

def CidLib.denote (lib : CidLib) (cidStr : String) : Except PyError Bytes :=
  (lib.parseCid cidStr).map lib.cidToBytes

def OnlySpelling (lib : CidLib) (pins : PinMap) (cidStr : String) : Prop :=
  ∀ s ∈ pins.keys, ∀ k, lib.denote cidStr = .ok k → lib.denote s = .ok k → s = cidStr

structure Represents (lib : CidLib) (pins : PinMap) (m : CidPins Bytes) : Prop where
  typed : ∀ s v, pins.get? s = some v → ∃ k t, lib.denote s = .ok k ∧ v = t.value ∧ m k = some t
  found : ∀ k t, m k = some t → ∃ s, lib.denote s = .ok k ∧ pins.get? s = some t.value

namespace Represents

variable {lib : CidLib} {pins : PinMap} {m : CidPins Bytes} {s : String} {k : Bytes}

theorem empty (lib : CidLib) : Represents lib .empty fun _ => none := by
  constructor
  · intro s v h
    contradiction
  · intro k t h
    contradiction

theorem get?_eq (h : Represents lib pins m) (honly : OnlySpelling lib pins s) (hk : lib.denote s = .ok k) :
    pins.get? s = (m k).map PinType.value := by
  cases hs : pins.get? s with
  | some v =>
    obtain ⟨k', t, hk', rfl, hm⟩ := h.typed s v hs
    obtain rfl : k = k' := Except.ok.inj (hk.symm.trans hk')
    simp [hm]
  | none =>
    cases hm : m k with
    | none => rfl
    | some t =>
      obtain ⟨s', hk', hs'⟩ := h.found k t hm
      obtain rfl := honly s' (Dict.mem_keys.mpr ⟨_, hs'⟩) k hk hk'
      simp [hs] at hs'

theorem get?_eq_none (h : Represents lib pins m) {e : PyError} (hk : lib.denote s = .error e) :
    pins.get? s = none := by
  cases hs : pins.get? s with
  | none => rfl
  | some v =>
    obtain ⟨k, t, hk', -⟩ := h.typed s v hs
    simp [hk] at hk'

theorem pinOf_eq (h : Represents lib pins m) (honly : OnlySpelling lib pins s) :
    pins.get? s = (m.pinOf lib.denote s).map PinType.value := by
  unfold CidPins.pinOf
  cases hk : lib.denote s with
  | error e => exact h.get?_eq_none hk
  | ok k => exact h.get?_eq honly hk

theorem update (h : Represents lib pins m) (honly : OnlySpelling lib pins s) (hk : lib.denote s = .ok k)
    (o : Option PinType) {pins' : PinMap}
    (hget : ∀ s', pins'.get? s' = if s' = s then o.map PinType.value else pins.get? s') :
    Represents lib pins' (Function.update m k o) := by
  constructor
  · intro s' v hv
    rw [hget] at hv
    split_ifs at hv with hs
    · obtain ⟨t, rfl, rfl⟩ := Option.map_eq_some_iff.mp hv
      exact ⟨k, t, hs ▸ hk, rfl, Function.update_self ..⟩
    · obtain ⟨k', u, hk', rfl, hm⟩ := h.typed s' v hv
      have hne : k' ≠ k := by
        rintro rfl
        exact hs (honly s' (Dict.mem_keys.mpr ⟨_, hv⟩) k' hk hk')
      exact ⟨k', u, hk', rfl, by rwa [Function.update_of_ne hne]⟩
  · intro k' u hm
    by_cases hkk : k' = k
    · subst hkk
      rw [Function.update_self] at hm
      exact ⟨s, hk, by rw [hget, if_pos rfl, hm, Option.map_some]⟩
    · rw [Function.update_of_ne hkk] at hm
      obtain ⟨s', hk', hs'⟩ := h.found k' u hm
      refine ⟨s', hk', ?_⟩
      rw [hget, if_neg]
      · exact hs'
      · rintro rfl
        exact hkk (Except.ok.inj (hk'.symm.trans hk))

theorem set (h : Represents lib pins m) (honly : OnlySpelling lib pins s) (hk : lib.denote s = .ok k)
    (t : PinType) : Represents lib (pins.set s t.value) (Function.update m k (some t)) :=
  h.update honly hk (some t) fun _ => Dict.get?_set ..

theorem erase (h : Represents lib pins m) (honly : OnlySpelling lib pins s) (hk : lib.denote s = .ok k) :
    Represents lib (pins.erase s) (Function.update m k none) :=
  h.update honly hk none fun _ => Dict.get?_erase ..

end Represents

namespace World

variable {lib : CidLib} {w : World} {m : CidPins Bytes} {io : PinStore.SaveIo}

theorem commit_saved (w : World) (io : PinStore.SaveIo) (pins : PinMap) :
    (w.commit io pins).2 = PinStore.saved w.store.path io := PinStore.save_saved ..

variable (io) in
theorem addPin_answer {cidStr : String} (pinType : String) (h : Represents lib w.store.pins m)
    (honly : OnlySpelling lib w.store.pins cidStr) :
    (w.addPin lib io cidStr pinType).2 =
        (m.addPin lib.denote (PinStore.saved w.store.path io) cidStr pinType).2 ∧
      Represents lib (w.addPin lib io cidStr pinType).1.store.pins
        (m.addPin lib.denote (PinStore.saved w.store.path io) cidStr pinType).1 := by
  simp only [addPin, CidPins.addPin]
  cases hp : lib.parseCid cidStr with
  | error e => simpa [CidLib.denote, hp, Except.map] using h
  | ok c =>
    have hk : lib.denote cidStr = .ok (lib.cidToBytes c) := by simp [CidLib.denote, hp, Except.map]
    have hget := h.get?_eq honly hk
    simp only [hk]
    cases ht : PinType.parse pinType with
    | none => simpa [if_pos (PinType.parse_eq_none.mp ht)] using h
    | some t =>
      obtain rfl := PinType.parse_eq_some.mp ht
      have hvalid : ¬(t.str ≠ "direct" ∧ t.str ≠ "recursive") := by cases t <;> simp [PinType.str]
      have hset : Represents lib (w.store.pins.set cidStr t.value)
          (Function.update m (lib.cidToBytes c) (some t)) := h.set honly hk t
      simp only [if_neg hvalid]
      cases hm : m (lib.cidToBytes c) with
      | none =>
        rw [hm] at hget
        simp only [hget, Option.map_none, if_false, reduceCtorEq, commit_saved]
        exact ⟨trivial, hset⟩
      | some u =>
        rw [hm] at hget
        have hrec : u.value.isType "recursive" = true ↔ u = .recursive :=
          PinType.value_isType (u := .recursive)
        simp only [hget, Option.map_some, PinType.value_isType, hrec, Option.some.injEq]
        by_cases hsame : u = t
        · simpa [hsame] using h
        · simp only [if_neg hsame]
          cases u with
          | recursive =>
            obtain rfl : t = .direct := by cases t <;> simp_all
            simpa [PinType.str] using h
          | direct =>
            simp only [reduceCtorEq, false_and, if_false, commit_saved]
            exact ⟨trivial, hset⟩

variable (io) in
theorem removePin_answer {cidStr : String} (h : Represents lib w.store.pins m)
    (honly : OnlySpelling lib w.store.pins cidStr) :
    (w.removePin io cidStr).2 = (m.removePin lib.denote (PinStore.saved w.store.path io) cidStr).2 ∧
      Represents lib (w.removePin io cidStr).1.store.pins
        (m.removePin lib.denote (PinStore.saved w.store.path io) cidStr).1 := by
  simp only [removePin, CidPins.removePin]
  cases hk : lib.denote cidStr with
  | error e => simpa [h.get?_eq_none hk] using h
  | ok k =>
    have hget := h.get?_eq honly hk
    have herase := h.erase honly hk
    cases hm : m k with
    | none =>
      rw [hm] at hget
      simpa [hget, hm] using h
    | some t =>
      rw [hm] at hget
      simpa [hget, hm, commit_saved] using herase

theorem answer_path (w : World) (op : PinOp) (io : PinStore.SaveIo) :
    (w.answer lib op io).1.store.path = w.store.path := by
  cases op with
  | change call => exact exec_path w (call, io)
  | isPinned cidStr => rfl
  | getPinType cidStr => rfl

variable (io) in
theorem answer_eq {op : PinOp} (h : Represents lib w.store.pins m)
    (honly : OnlySpelling lib w.store.pins op.cidStr) :
    (w.answer lib op io).2 = (m.answer lib.denote op (PinStore.saved w.store.path io)).2 ∧
      Represents lib (w.answer lib op io).1.store.pins
        (m.answer lib.denote op (PinStore.saved w.store.path io)).1 := by
  cases op with
  | change call =>
    cases call with
    | addPin cidStr pinType =>
      obtain ⟨hr, hpins⟩ := addPin_answer io pinType h honly
      exact ⟨congrArg PinAnswer.done hr, hpins⟩
    | removePin cidStr =>
      obtain ⟨hr, hpins⟩ := removePin_answer io h honly
      exact ⟨congrArg PinAnswer.done hr, hpins⟩
  | isPinned cidStr =>
    refine ⟨congrArg PinAnswer.pinned ?_, h⟩
    have hpin : w.store.pins.get? cidStr = (m.pinOf lib.denote cidStr).map PinType.value := h.pinOf_eq honly
    rw [isPinned, hpin, Option.isSome_map]
  | getPinType cidStr =>
    refine ⟨congrArg PinAnswer.pinType ?_, h⟩
    exact h.pinOf_eq honly

def Spelled (lib : CidLib) (w : World) : List (PinOp × PinStore.SaveIo) → Prop
  | [] => True
  | (op, io) :: ops => OnlySpelling lib w.store.pins op.cidStr ∧ Spelled lib (w.answer lib op io).1 ops

theorem answers_eq {ops : List (PinOp × PinStore.SaveIo)} (h : Represents lib w.store.pins m)
    (hspelled : w.Spelled lib ops) :
    w.answers lib ops =
      m.answers lib.denote (ops.map fun p => (p.1, PinStore.saved w.store.path p.2)) := by
  induction ops generalizing w m with
  | nil => rfl
  | cons p ops ih =>
    obtain ⟨op, io⟩ := p
    obtain ⟨honly, hrest⟩ := hspelled
    obtain ⟨hr, hrep⟩ := answer_eq io h honly
    have ht := ih hrep hrest
    rw [answer_path] at ht
    simp only [answers, CidPins.answers, List.map_cons, hr, ht]

theorem answer_keys (w : World) (op : PinOp) (io : PinStore.SaveIo) :
    ∀ s ∈ (w.answer lib op io).1.store.pins.keys, s ∈ w.store.pins.keys ∨ s = op.cidStr := by
  intro s hs
  cases op with
  | change call =>
    change s ∈ (w.exec lib call io).1.store.pins.keys at hs
    cases hsaves : call.saves lib w.store.pins with
    | none =>
      rw [exec_idle hsaves] at hs
      exact .inl hs
    | some pins =>
      rw [exec_saves hsaves, commit_pins] at hs
      cases call with
      | addPin cidStr pinType =>
        obtain ⟨-, -, -, rfl⟩ := PinCall.saves_addPin hsaves
        exact ((Dict.mem_keys_set ..).mp hs).symm
      | removePin cidStr =>
        obtain ⟨-, rfl⟩ := PinCall.saves_removePin hsaves
        exact .inl ((Dict.mem_keys_erase ..).mp hs).2
  | isPinned cidStr => exact .inl hs
  | getPinType cidStr => exact .inl hs

end World

def SingleSpelling (lib : CidLib) (strs : Set String) : Prop :=
  ∀ s ∈ strs, ∀ s' ∈ strs, ∀ k, lib.denote s = .ok k → lib.denote s' = .ok k → s = s'

theorem World.spelled_of_single {lib : CidLib} {strs : Set String} (hsingle : SingleSpelling lib strs)
    {w : World} {ops : List (PinOp × PinStore.SaveIo)} (hkeys : ∀ s ∈ w.store.pins.keys, s ∈ strs)
    (hops : ∀ p ∈ ops, p.1.cidStr ∈ strs) : w.Spelled lib ops := by
  induction ops generalizing w with
  | nil => trivial
  | cons p ops ih =>
    obtain ⟨op, io⟩ := p
    have hop : op.cidStr ∈ strs := hops _ List.mem_cons_self
    constructor
    · intro s hs k hk hk'
      exact hsingle s (hkeys s hs) _ hop k hk' hk
    · apply ih
      · intro s hs
        obtain hs | rfl := w.answer_keys op io s hs
        · exact hkeys s hs
        · exact hop
      · exact fun p hp => hops p (List.mem_cons_of_mem _ hp)

/-- Calls that answer as the machine that keeps one pin type for each CID. -/
def Refines (lib : CidLib) (w : World) (m : CidPins Bytes) (ops : List (PinOp × PinStore.SaveIo)) : Prop :=
  w.answers lib ops = m.answers lib.denote (ops.map fun p => (p.1, PinStore.saved w.store.path p.2))

theorem denote_eq_ok {lib : CidLib} {s : String} {k : Bytes} :
    lib.denote s = .ok k ↔ ∃ c, lib.parseCid s = .ok c ∧ lib.cidToBytes c = k := by
  unfold CidLib.denote
  cases lib.parseCid s <;> simp [Except.map]

theorem not_refines_of_spellings {lib : CidLib} {s s' : String} {k : Bytes} (hne : s ≠ s')
    (hs : lib.denote s = .ok k) (hs' : lib.denote s' = .ok k) (path : Option Path) (files : Files) :
    ¬Refines lib ⟨⟨path, .empty⟩, files⟩ (fun _ => none)
      [(.change (.addPin s "recursive"), .ok), (.isPinned s', .ok)] := by
  obtain ⟨c, hc, -⟩ := denote_eq_ok.mp hs
  intro h
  have hpinned : World.answers lib ⟨⟨path, .empty⟩, files⟩
      [(.change (.addPin s "recursive"), .ok), (.isPinned s', .ok)] =
        [.done (PinStore.saved path .ok), .pinned false] := by
    simp [World.answers, World.answer, World.exec, World.addPin, hc, PinStore.save_saved, World.isPinned,
      World.commit, hne.symm]
  have hpinned' : CidPins.answers lib.denote (fun _ => none)
      [(.change (.addPin s "recursive"), PinStore.saved path .ok), (.isPinned s', PinStore.saved path .ok)] =
        [.done (PinStore.saved path .ok), .pinned true] := by
    simp [CidPins.answers, CidPins.answer, CidPins.addPin, CidPins.pinOf, hs, hs', PinType.parse]
  simp [Refines, hpinned, hpinned'] at h

theorem pinStore_refines (lib : CidLib) :
    (∀ w m ops, Represents lib w.store.pins m → w.Spelled lib ops → Refines lib w m ops) ∧
      ∀ path files strs, (∀ ops : List (PinOp × PinStore.SaveIo), (∀ p ∈ ops, p.1.cidStr ∈ strs) →
        Refines lib ⟨⟨path, .empty⟩, files⟩ (fun _ => none) ops) ↔ SingleSpelling lib strs := by
  refine ⟨fun w m ops => World.answers_eq, fun path files strs => ⟨?_, ?_⟩⟩
  · intro h s hs s' hs' k hk hk'
    by_contra hne
    apply not_refines_of_spellings hne hk hk' path files
    apply h
    simp [PinOp.cidStr, hs, hs']
  · intro hsingle ops hops
    apply World.answers_eq (.empty lib)
    apply World.spelled_of_single hsingle
    · intro s hs
      simp at hs
    · exact hops

namespace KnownCid

def rawAHex : KnownCid :=
  ⟨"f01551220ca978112ca1bbdcafac231b39a23dc4da786eff8147c4e72b9807785afee48bb", rawA.bytes, "raw", sha256A⟩

end KnownCid

def spellings : CidLib := .ofTable [.rawA, .rawAHex, .rawB]

theorem spellings_single : SingleSpelling spellings {KnownCid.rawA.str, KnownCid.rawB.str} := by
  have hA : spellings.denote KnownCid.rawA.str = .ok KnownCid.rawA.bytes := rfl
  have hB : spellings.denote KnownCid.rawB.str = .ok KnownCid.rawB.bytes := rfl
  have hne : KnownCid.rawA.bytes ≠ KnownCid.rawB.bytes := by decide
  rintro s (rfl | rfl) s' (rfl | rfl) k hk hk'
  · rfl
  · exact absurd (Except.ok.inj (hA.symm.trans (hk.trans (hk'.symm.trans hB)))) hne
  · exact absurd (Except.ok.inj (hA.symm.trans (hk'.trans (hk.symm.trans hB)))) hne
  · rfl

theorem pinStore_refines_sample :
    Refines spellings ⟨⟨none, .empty⟩, fun _ => none⟩ (fun _ => none)
      [(.change (.addPin KnownCid.rawA.str "direct"), .ok),
        (.change (.addPin KnownCid.rawA.str "recursive"), .ok),
        (.change (.addPin KnownCid.rawA.str "direct"), .ok), (.change (.removePin KnownCid.rawB.str), .ok),
        (.getPinType KnownCid.rawA.str, .ok)] := by
  apply (pinStore_refines spellings).1 _ _ _ (.empty spellings)
  apply World.spelled_of_single spellings_single
  · intro s hs
    simp at hs
  · simp [PinOp.cidStr]

def lastPinned : List PinAnswer → Bool
  | [_, _, .pinned b] => b
  | _ => false

theorem pinStore_refines_fails :
    ¬∀ (lib : CidLib) (w : World) (ops : List (PinOp × PinStore.SaveIo)), w.store.pins = .empty →
      Refines lib w (fun _ => none) ops := by
  intro h
  have hr := h spellings ⟨⟨none, .empty⟩, fun _ => none⟩
    [(.change (.addPin KnownCid.rawA.str "recursive"), .ok),
      (.change (.removePin KnownCid.rawAHex.str), .ok), (.isPinned KnownCid.rawA.str, .ok)] rfl
  have hpinned : true = false := congrArg lastPinned hr
  contradiction

end IpfsLite
