import IpfsLite.Exceptions
import IpfsLite.Lib.Firsts

/-!
`TieredRouting`. A router answers each of its methods or raises; a lookup calls each router at most
once, so an answer is a function of the arguments.
-/

namespace IpfsLite.Routing

structure PeerInfo where
  peerId : String
  addrs : List String
deriving DecidableEq

structure Router where
  findProviders : String → ℤ → Except PyError (List PeerInfo)
  provide : String → Except PyError Bool
  getValue : String → Except PyError (Option (List UInt8))
  putValue : String → List UInt8 → Except PyError Unit

abbrev TieredRouting := List Router

structure Found where
  allProviders : List PeerInfo := []
  seenIds : List String := []

def Found.add (found : Found) (p : PeerInfo) : Found :=
  if p.peerId ∉ found.seenIds then ⟨found.allProviders ++ [p], p.peerId :: found.seenIds⟩ else found

/-- The slice `xs[:count]`. -/
def upTo {α : Type} (xs : List α) (count : ℤ) : List α :=
  if 0 ≤ count then xs.take count.toNat else xs.take (xs.length + count).toNat

namespace TieredRouting

def search (key : String) (count : ℤ) : TieredRouting → Found → Found
  | [], found => found
  | r :: rest, found =>
    match r.findProviders key count with
    | .error _ => search key count rest found
    | .ok [] => search key count rest found
    | .ok (p :: ps) =>
      let found := (p :: ps).foldl Found.add found
      if count ≤ found.allProviders.length then found else search key count rest found

def findProviders (routers : TieredRouting) (key : String) (count : ℤ) : List PeerInfo :=
  upTo (routers.search key count {}).allProviders count

def provide (routers : TieredRouting) (key : String) : Bool :=
  routers.foldl (fun success r => if r.provide key = .ok true then true else success) false

def getValue (key : String) : TieredRouting → Option (List UInt8)
  | [] => none
  | r :: rest =>
    match r.getValue key with
    | .ok (some val) => some val
    | .ok none | .error _ => getValue key rest

def putLoop (key : String) (value : List UInt8) : TieredRouting → Bool → Option PyError → Except PyError Unit
  | [], success, lastErr =>
    if lastErr.isSome ∧ ¬success then .error ⟨.routingError, "Failed to put value in all routers"⟩ else .ok ()
  | r :: rest, success, lastErr =>
    match r.putValue key value with
    | .ok _ => putLoop key value rest true lastErr
    | .error e => putLoop key value rest success (some e)

def putValue (routers : TieredRouting) (key : String) (value : List UInt8) : Except PyError Unit :=
  routers.putLoop key value false none

end TieredRouting

variable {key : String} {count : ℤ} {found : Found} {routers : TieredRouting}

def Router.providers (r : Router) (key : String) (count : ℤ) : List PeerInfo :=
  (r.findProviders key count).toOption.getD []

/-- What the lookup is for: every router is asked, and a peer counts where it is named first. -/
def exhaustive (routers : TieredRouting) (key : String) (count : ℤ) : List PeerInfo :=
  firsts PeerInfo.peerId (routers.flatMap fun r => r.providers key count)

structure Holds (found : Found) (ps : List PeerInfo) : Prop where
  providers : found.allProviders = firsts PeerInfo.peerId ps
  seen : ∀ id, id ∈ found.seenIds ↔ id ∈ ps.map PeerInfo.peerId

theorem Holds.add {ps : List PeerInfo} (h : Holds found ps) (p : PeerInfo) : Holds (found.add p) (ps ++ [p]) := by
  by_cases hseen : p.peerId ∈ found.seenIds
  · have hadd : found.add p = found := if_neg (not_not.mpr hseen)
    rw [hadd]
    constructor
    · rw [firsts_concat, if_pos ((h.seen _).mp hseen), h.providers]
    · intro id
      rw [List.map_append, List.mem_append, ← h.seen, List.map_singleton, List.mem_singleton]
      exact (or_iff_left_of_imp fun hid => hid ▸ hseen).symm
  · have hadd : found.add p = ⟨found.allProviders ++ [p], p.peerId :: found.seenIds⟩ := if_pos hseen
    rw [hadd]
    constructor
    · rw [firsts_concat, if_neg fun hmem => hseen ((h.seen _).mpr hmem), h.providers]
    · intro id
      rw [List.map_append, List.mem_append, ← h.seen, List.map_singleton, List.mem_singleton, List.mem_cons,
        or_comm]

theorem Holds.addAll {ps : List PeerInfo} (h : Holds found ps) (qs : List PeerInfo) :
    Holds (qs.foldl Found.add found) (ps ++ qs) := by
  induction qs generalizing found ps with
  | nil => rwa [List.append_nil]
  | cons q qs ih =>
    rw [List.foldl_cons, ← List.singleton_append, ← List.append_assoc]
    exact ih (h.add q)

/-- An early stop leaves off only what is beyond the first `count`. -/
theorem search_holds (routers : TieredRouting) (key : String) (hcount : 1 ≤ count) {ps : List PeerInfo}
    (h : Holds found ps) :
    (routers.search key count found).allProviders.take count.toNat =
      (firsts PeerInfo.peerId (ps ++ routers.flatMap fun r => r.providers key count)).take count.toNat := by
  induction routers generalizing found ps with
  | nil => rw [List.flatMap_nil, List.append_nil, ← h.providers, TieredRouting.search]
  | cons r rest ih =>
    rw [List.flatMap_cons, ← List.append_assoc, TieredRouting.search]
    cases hr : r.findProviders key count with
    | error e =>
      have hnone : r.providers key count = [] := by simp [Router.providers, hr, Except.toOption]
      rw [hnone, List.append_nil]
      exact ih h
    | ok answer =>
      have hall : r.providers key count = answer := by simp [Router.providers, hr, Except.toOption]
      rw [hall]
      cases answer with
      | nil =>
        rw [List.append_nil]
        exact ih h
      | cons p answer =>
        have hadded := h.addAll (p :: answer)
        dsimp only
        split_ifs with henough
        · have hpre := firsts_prefix PeerInfo.peerId (ps ++ p :: answer)
            (rest.flatMap fun r => r.providers key count)
          rw [← hadded.providers] at hpre
          obtain ⟨more, hmore⟩ := hpre
          rw [← hmore, List.take_append_of_le_length (by omega)]
        · exact ih hadded

theorem findProviders_eq (routers : TieredRouting) (key : String) (count : ℤ) (hcount : 1 ≤ count) :
    routers.findProviders key count = (exhaustive routers key count).take count.toNat ∧
      ((routers.findProviders key count).map PeerInfo.peerId).Nodup := by
  have hempty : Holds {} [] := ⟨rfl, fun _ => Iff.rfl⟩
  have hsearch := search_holds routers key hcount hempty
  have heq : routers.findProviders key count = (exhaustive routers key count).take count.toNat := by
    rw [TieredRouting.findProviders, upTo, if_pos (by omega), hsearch]
    rfl
  refine ⟨heq, ?_⟩
  rw [heq]
  exact (nodup_map_firsts _ _).sublist ((List.take_sublist _ _).map _)

def answering (answer : Except PyError (List PeerInfo)) : Router :=
  ⟨fun _ _ => answer, fun _ => .ok false, fun _ => .ok none, fun _ _ => .ok ()⟩

theorem findProviders_eq_overlapping :
    let routers := [answering (.error ⟨.runtimeError, "down"⟩),
      answering (.ok [⟨"QmA", []⟩, ⟨"QmB", []⟩, ⟨"QmA", ["/ip4/1.2.3.4"]⟩]),
      answering (.ok [⟨"QmB", []⟩, ⟨"QmC", []⟩])]
    TieredRouting.findProviders routers "bafy" 3 = (exhaustive routers "bafy" 3).take 3 ∧
      ((TieredRouting.findProviders routers "bafy" 3).map PeerInfo.peerId).Nodup :=
  findProviders_eq _ _ 3 (by decide)

/-! The other methods -/

theorem provide_iff (routers : TieredRouting) (key : String) :
    routers.provide key = true ↔ ∃ r ∈ routers, r.provide key = .ok true := by
  have hfold (success : Bool) :
      routers.foldl (fun success r => if r.provide key = .ok true then true else success) success = true ↔
        success = true ∨ ∃ r ∈ routers, r.provide key = .ok true := by
    induction routers generalizing success with
    | nil => simp
    | cons r rest ih =>
      rw [List.foldl_cons, ih, List.exists_mem_cons_iff]
      split_ifs with hr
      · simp [hr]
      · simp [hr]
  rw [TieredRouting.provide, hfold]
  simp

theorem getValue_eq (routers : TieredRouting) (key : String) :
    routers.getValue key = routers.findSome? fun r => (r.getValue key).toOption.join := by
  induction routers with
  | nil => rfl
  | cons r rest ih =>
    rw [TieredRouting.getValue, List.findSome?_cons]
    cases r.getValue key with
    | error e => exact ih
    | ok val =>
      cases val with
      | none => exact ih
      | some val => rfl

theorem putLoop_ok_iff (key : String) (value : List UInt8) (success : Bool) (lastErr : Option PyError) :
    routers.putLoop key value success lastErr = .ok () ↔
      success = true ∨ (∃ r ∈ routers, r.putValue key value = .ok ()) ∨ (routers = [] ∧ lastErr = none) := by
  induction routers generalizing success lastErr with
  | nil => cases success <;> cases lastErr <;> simp [TieredRouting.putLoop]
  | cons r rest ih =>
    rw [TieredRouting.putLoop, List.exists_mem_cons_iff]
    cases hr : r.putValue key value with
    | ok x =>
      dsimp only
      rw [ih]
      simp
    | error e =>
      dsimp only
      rw [ih]
      simp

theorem putValue_ok_iff (routers : TieredRouting) (key : String) (value : List UInt8) :
    routers.putValue key value = .ok () ↔
      routers = [] ∨ ∃ r ∈ routers, r.putValue key value = .ok () := by
  rw [TieredRouting.putValue, putLoop_ok_iff]
  simp [or_comm]

/-! A router that raises, or has nothing -/

theorem search_silent {r : Router} (hr : r.providers key count = []) (before after : TieredRouting) (found : Found) :
    (before ++ r :: after).search key count found = (before ++ after).search key count found := by
  induction before generalizing found with
  | nil =>
    rw [List.nil_append, List.nil_append, TieredRouting.search]
    cases hanswer : r.findProviders key count with
    | error e => rfl
    | ok answer =>
      have hempty : answer = [] := by simpa [Router.providers, hanswer, Except.toOption] using hr
      subst hempty
      rfl
  | cons q before ih =>
    rw [List.cons_append, List.cons_append, TieredRouting.search, TieredRouting.search]
    simp only [ih]

theorem exists_mem_insert {before after : TieredRouting} {r : Router} {p : Router → Prop} (hp : ¬p r) :
    (∃ q ∈ before ++ r :: after, p q) ↔ ∃ q ∈ before ++ after, p q := by
  simp only [List.mem_append, List.mem_cons]
  constructor
  · rintro ⟨q, hq | rfl | hq, h⟩
    · exact ⟨q, .inl hq, h⟩
    · exact absurd h hp
    · exact ⟨q, .inr hq, h⟩
  · rintro ⟨q, hq | hq, h⟩
    · exact ⟨q, .inl hq, h⟩
    · exact ⟨q, .inr (.inr hq), h⟩

/-- In each method on its own, and wherever the router stands among the others. -/
theorem silent_invisible (before after : TieredRouting) (r : Router) (key : String) (count : ℤ) (value : List UInt8) :
    (r.providers key count = [] → TieredRouting.findProviders (before ++ r :: after) key count =
      TieredRouting.findProviders (before ++ after) key count) ∧
    (r.provide key ≠ .ok true → TieredRouting.provide (before ++ r :: after) key =
      TieredRouting.provide (before ++ after) key) ∧
    ((r.getValue key).toOption.join = none → TieredRouting.getValue key (before ++ r :: after) =
      TieredRouting.getValue key (before ++ after)) ∧
    (r.putValue key value ≠ .ok () → before ++ after ≠ [] →
      (TieredRouting.putValue (before ++ r :: after) key value = .ok () ↔
        TieredRouting.putValue (before ++ after) key value = .ok ())) := by
  refine ⟨fun hr => ?_, fun hr => ?_, fun hr => ?_, fun hr hne => ?_⟩
  · rw [TieredRouting.findProviders, search_silent hr]
    rfl
  · rw [Bool.eq_iff_iff, provide_iff, provide_iff, exists_mem_insert hr]
  · rw [getValue_eq, getValue_eq, List.findSome?_append, List.findSome?_append, List.findSome?_cons, hr]
  · rw [putValue_ok_iff, putValue_ok_iff, exists_mem_insert hr]
    simp [hne]

end IpfsLite.Routing
