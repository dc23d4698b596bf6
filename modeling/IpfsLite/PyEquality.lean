import IpfsLite.PyValue

/-!
`==` of Python on values that have been read from a block, and a dictionary that is filled item by item.
No object stands on both sides, so the identity of objects plays no part.
-/

namespace IpfsLite.PyValue

/-- The number that a value stands for, or the sign of an infinite one. -/
def numeric : PyValue → Option (ℚ ⊕ Bool)
  | .float bits =>
    match floatNumber bits with
    | some q => some (.inl q)
    | Option.none => if bits.toNat % 2 ^ 52 = 0 then some (.inr bits.msb) else Option.none
  | v => v.number?.map .inl

def isNan : PyValue → Bool
  | .float bits => (numeric (.float bits)).isNone
  | _ => false

def isNone : PyValue → Bool
  | .none => true
  | _ => false

/-- An `IPLDNode` is equal to the string of its CID. -/
def text? : PyValue → Option PyStr
  | .str s => some s
  | .ipldNode s => some s
  | _ => Option.none

mutual

def pyEq (v w : PyValue) : Bool :=
  match v with
  | .none => w.isNone
  | .str s => w.text? = some s
  | .ipldNode s => w.text? = some (.text s)
  | .bytes b => w.eqBytes b
  | .bool _ | .int _ | .float _ | .number _ => v.numeric.isSome && v.numeric = w.numeric
  | .list vs =>
    match w with
    | .list ws => eqItems vs ws
    | _ => false
  | .tuple vs =>
    match w with
    | .tuple ws => eqItems vs ws
    | _ => false
  | .set vs =>
    match w with
    | .set ws => vs.length = ws.length && eqMembers vs ws
    | _ => false
  | .dict es =>
    match w with
    | .dict fs => es.length = fs.length && eqDict es fs
    | _ => false
  | .cborTag tag v =>
    match w with
    | .cborTag tag' w => tag = tag' && pyEq v w
    | _ => false
  | .object _ => false
termination_by structural v

def eqItems : List PyValue → List PyValue → Bool
  | [], ws => ws.isEmpty
  | v :: vs, ws =>
    match ws with
    | [] => false
    | w :: ws => pyEq v w && eqItems vs ws
termination_by structural vs => vs

def eqMembers : List PyValue → List PyValue → Bool
  | [], _ => true
  | v :: vs, ws => ws.any (fun w => pyEq v w) && eqMembers vs ws
termination_by structural vs => vs

def eqDict : List (PyValue × PyValue) → List (PyValue × PyValue) → Bool
  | [], _ => true
  | (k, v) :: es, fs =>
    match fs.find? (fun f => pyEq k f.1) with
    | some f => pyEq v f.2 && eqDict es fs
    | Option.none => false
termination_by structural es => es

end

def setItem : List (PyValue × PyValue) → PyValue → PyValue → List (PyValue × PyValue)
  | [], k, v => [(k, v)]
  | (l, w) :: es, k, v => if pyEq l k then (l, v) :: es else (l, w) :: setItem es k v

def dictOf (pairs : List (PyValue × PyValue)) : List (PyValue × PyValue) :=
  pairs.foldl (fun d e => setItem d e.1 e.2) []

def KeysDistinct (es : List (PyValue × PyValue)) : Prop :=
  es.Pairwise fun e f => pyEq e.1 f.1 = false ∧ pyEq f.1 e.1 = false

theorem setItem_new {es : List (PyValue × PyValue)} {k : PyValue} (v : PyValue)
    (h : ∀ e ∈ es, pyEq e.1 k = false) : setItem es k v = es ++ [(k, v)] := by
  induction es with
  | nil => rfl
  | cons e es ih =>
    have he : pyEq e.1 k = false := h e (by simp)
    rw [setItem, if_neg (by simp [he]), ih fun f hf => h f (by simp [hf]), List.cons_append]

theorem foldl_setItem {ps : List (PyValue × PyValue)} : ∀ d : List (PyValue × PyValue),
    KeysDistinct (d ++ ps) → ps.foldl (fun d e => setItem d e.1 e.2) d = d ++ ps := by
  induction ps with
  | nil =>
    intro d _
    simp
  | cons p ps ih =>
    intro d h
    have hnew : ∀ e ∈ d, pyEq e.1 p.1 = false := by
      intro e he
      exact ((List.pairwise_append.mp h).2.2 e he p (by simp)).1
    rw [List.foldl_cons, setItem_new p.2 hnew, ih (d ++ [(p.1, p.2)]) (by simpa using h)]
    simp

theorem dictOf_distinct {ps : List (PyValue × PyValue)} (h : KeysDistinct ps) : dictOf ps = ps :=
  foldl_setItem [] h

theorem eqDict_iff {es fs : List (PyValue × PyValue)} : eqDict es fs = true ↔
    ∀ e ∈ es, ∃ f, fs.find? (fun f => pyEq e.1 f.1) = some f ∧ pyEq e.2 f.2 = true := by
  induction es with
  | nil => simp [eqDict]
  | cons e es ih =>
    obtain ⟨k, v⟩ := e
    rw [eqDict, List.forall_mem_cons]
    cases fs.find? (fun f => pyEq k f.1) with
    | none => simp
    | some f => simp [ih]

section Maps

variable {ι : Type*} {ps : List ι} {k v k' v' : ι → PyValue}

theorem keysDistinct_map : KeysDistinct (ps.map fun a => (k a, v a)) ↔
    ps.Pairwise fun a b => pyEq (k a) (k b) = false ∧ pyEq (k b) (k a) = false :=
  List.pairwise_map

theorem find_self (h : KeysDistinct (ps.map fun a => (k a, v a))) {a : ι} (ha : a ∈ ps) :
    ps.find? (fun b => pyEq (k a) (k b)) = if pyEq (k a) (k a) then some a else Option.none := by
  rw [keysDistinct_map] at h
  induction ps with
  | nil => contradiction
  | cons b ps ih =>
    obtain ⟨hfirst, hrest⟩ := List.pairwise_cons.mp h
    rcases List.mem_cons.mp ha with rfl | ha
    · cases hself : pyEq (k a) (k a) with
      | true => simp [hself]
      | false =>
        have hnone : ps.find? (fun b => pyEq (k a) (k b)) = Option.none := by
          apply List.find?_eq_none.mpr
          intro b hb
          simp [(hfirst b hb).1]
        simp [hself, hnone]
    · rw [List.find?_cons_of_neg (by simp [(hfirst a ha).2]), ih hrest ha]

theorem eqDict_map_iff (hdistinct : KeysDistinct (ps.map fun a => (k a, v a)))
    (hkeys : ∀ a ∈ ps, ∀ b ∈ ps, pyEq (k a) (k' b) = pyEq (k a) (k b)) :
    eqDict (ps.map fun a => (k a, v a)) (ps.map fun a => (k' a, v' a)) = true ↔
      ∀ a ∈ ps, pyEq (k a) (k a) = true ∧ pyEq (v a) (v' a) = true := by
  rw [eqDict_iff, List.forall_mem_map]
  apply forall₂_congr
  intro a ha
  have hfind : (ps.map fun a => (k' a, v' a)).find? (fun f => pyEq (k a) f.1) =
      (ps.find? fun b => pyEq (k a) (k b)).map fun a => (k' a, v' a) := by
    rw [List.find?_map]
    congr 1
    apply List.find?_congr
    intro b hb
    exact hkeys a ha b hb
  rw [hfind, find_self hdistinct ha]
  cases pyEq (k a) (k a) <;> simp

end Maps

theorem setItem_keys {es : List (PyValue × PyValue)} {k v : PyValue} :
    ∀ f ∈ setItem es k v, f.1 = k ∨ ∃ e ∈ es, f.1 = e.1 := by
  induction es with
  | nil =>
    intro f hf
    rw [List.mem_singleton.mp hf]
    exact .inl rfl
  | cons e es ih =>
    intro f hf
    rw [setItem] at hf
    split at hf
    · rcases List.mem_cons.mp hf with rfl | hf
      · exact .inr ⟨e, by simp, rfl⟩
      · exact .inr ⟨f, by simp [hf], rfl⟩
    · rcases List.mem_cons.mp hf with rfl | hf
      · exact .inr ⟨e, by simp, rfl⟩
      · rcases ih f hf with h | ⟨g, hg, h⟩
        · exact .inl h
        · exact .inr ⟨g, by simp [hg], h⟩

theorem foldl_setItem_keys {ps : List (PyValue × PyValue)} : ∀ d : List (PyValue × PyValue),
    ∀ f ∈ ps.foldl (fun d e => setItem d e.1 e.2) d, ∃ e ∈ d ++ ps, f.1 = e.1 := by
  induction ps with
  | nil =>
    intro d f hf
    exact ⟨f, by simpa using hf, rfl⟩
  | cons p ps ih =>
    intro d f hf
    obtain ⟨e, he, hfe⟩ := ih _ f hf
    rcases List.mem_append.mp he with he | he
    · rcases setItem_keys e he with hkey | ⟨g, hg, hkey⟩
      · exact ⟨p, by simp, hfe.trans hkey⟩
      · exact ⟨g, by simp [hg], hfe.trans hkey⟩
    · exact ⟨e, by simp [he], hfe⟩

theorem dictOf_keys {ps : List (PyValue × PyValue)} : ∀ f ∈ dictOf ps, ∃ e ∈ ps, f.1 = e.1 :=
  foldl_setItem_keys []

end IpfsLite.PyValue
