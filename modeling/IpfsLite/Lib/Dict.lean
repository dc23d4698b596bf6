import Mathlib.Tactic
import Mathlib.Data.List.Nodup

/-!
A dictionary that remembers insertion order: assigning to a key that is present keeps its place,
a new key goes last, and deleting a key closes the gap.
-/

namespace IpfsLite

variable {α β γ : Type*}

structure Dict (α β : Type*) where
  entries : List (α × β)
  nodup : (entries.map Prod.fst).Nodup

namespace Dict

def empty : Dict α β := ⟨[], List.nodup_nil⟩

def keys (d : Dict α β) : List α := d.entries.map Prod.fst

@[simp] theorem keys_empty : (empty : Dict α β).keys = [] := rfl

theorem ext {d e : Dict α β} (h : d.entries = e.entries) : d = e := by
  cases d
  cases e
  simp_all

variable [DecidableEq α]

def get? (d : Dict α β) (k : α) : Option β := d.entries.lookup k

@[simp] theorem get?_empty (k : α) : (empty : Dict α β).get? k = none := rfl

def setEntries (k : α) (v : β) : List (α × β) → List (α × β)
  | [] => [(k, v)]
  | e :: es => if e.1 = k then (k, v) :: es else e :: setEntries k v es

theorem mem_map_fst_setEntries (k : α) (v : β) (es : List (α × β)) (x : α) :
    x ∈ (setEntries k v es).map Prod.fst ↔ x = k ∨ x ∈ es.map Prod.fst := by
  induction es with
  | nil => simp [setEntries]
  | cons e es ih =>
    simp only [setEntries]
    split_ifs with he
    · simp [he]
    · simp only [List.map_cons, List.mem_cons, ih]
      tauto

theorem nodup_setEntries (k : α) (v : β) {es : List (α × β)} (h : (es.map Prod.fst).Nodup) :
    ((setEntries k v es).map Prod.fst).Nodup := by
  induction es with
  | nil => simp [setEntries]
  | cons e es ih =>
    simp only [List.map_cons, List.nodup_cons] at h
    simp only [setEntries]
    split_ifs with he
    · simpa [← he] using h
    · simp only [List.map_cons, List.nodup_cons, mem_map_fst_setEntries]
      exact ⟨by simp [he, h.1], ih h.2⟩

def set (d : Dict α β) (k : α) (v : β) : Dict α β :=
  ⟨setEntries k v d.entries, nodup_setEntries k v d.nodup⟩

def erase (d : Dict α β) (k : α) : Dict α β :=
  ⟨d.entries.filter (fun e => e.1 ≠ k), d.nodup.sublist (List.filter_sublist.map _)⟩

def ofList (es : List (α × β)) : Dict α β := es.foldl (fun d e => d.set e.1 e.2) empty

theorem lookup_pair (x : α) (e : α × β) (es : List (α × β)) :
    (e :: es).lookup x = if x = e.1 then some e.2 else es.lookup x := by
  obtain ⟨k, v⟩ := e
  by_cases h : x = k
  · simp [h]
  · have hb : (x == k) = false := by simpa using h
    simp [List.lookup_cons, hb, h]

theorem lookup_setEntries (k : α) (v : β) (es : List (α × β)) (x : α) :
    (setEntries k v es).lookup x = if x = k then some v else es.lookup x := by
  induction es with
  | nil => simp [setEntries, lookup_pair]
  | cons e es ih =>
    simp only [setEntries]
    split_ifs with ha hx hx
    · simp [lookup_pair, hx]
    · simp [lookup_pair, hx, ha]
    · rw [lookup_pair, if_neg (by rw [hx]; exact Ne.symm ha), ih, if_pos hx]
    · rw [lookup_pair, lookup_pair, ih, if_neg hx]

@[simp] theorem get?_set (d : Dict α β) (k : α) (v : β) (x : α) :
    (d.set k v).get? x = if x = k then some v else d.get? x := lookup_setEntries k v d.entries x

theorem mem_keys_set (d : Dict α β) (k : α) (v : β) (x : α) :
    x ∈ (d.set k v).keys ↔ x = k ∨ x ∈ d.keys := mem_map_fst_setEntries k v d.entries x

theorem mem_keys_erase (d : Dict α β) (k : α) (x : α) :
    x ∈ (d.erase k).keys ↔ x ≠ k ∧ x ∈ d.keys := by
  simp only [keys, erase, List.mem_map, List.mem_filter, decide_eq_true_eq]
  constructor
  · rintro ⟨e, ⟨he, hk⟩, rfl⟩
    exact ⟨hk, e, he, rfl⟩
  · rintro ⟨hk, e, he, rfl⟩
    exact ⟨e, ⟨he, hk⟩, rfl⟩

theorem lookup_eq_none {es : List (α × β)} {k : α} : es.lookup k = none ↔ k ∉ es.map Prod.fst := by
  induction es with
  | nil => simp
  | cons e es ih =>
    by_cases h : k = e.1
    · simp [lookup_pair, h]
    · rw [lookup_pair, if_neg h, ih, List.map_cons, List.mem_cons, not_or]
      exact ⟨fun hk => ⟨h, hk⟩, fun hk => hk.2⟩

theorem get?_eq_none {d : Dict α β} {k : α} : d.get? k = none ↔ k ∉ d.keys := lookup_eq_none

theorem mem_entries_lookup {es : List (α × β)} (hn : (es.map Prod.fst).Nodup) {k : α} {v : β} :
    es.lookup k = some v ↔ (k, v) ∈ es := by
  induction es with
  | nil => simp
  | cons e es ih =>
    obtain ⟨hfresh, hn⟩ := List.nodup_cons.mp hn
    rw [lookup_pair, List.mem_cons]
    by_cases h : k = e.1
    · subst h
      have hnot : (e.1, v) ∉ es := fun hm => hfresh (List.mem_map.mpr ⟨_, hm, rfl⟩)
      simp [hnot, Prod.ext_iff, eq_comm]
    · simp [h, ih hn, Prod.ext_iff]

theorem get?_eq_some {d : Dict α β} {k : α} {v : β} : d.get? k = some v ↔ (k, v) ∈ d.entries :=
  mem_entries_lookup d.nodup

theorem mem_keys {d : Dict α β} {k : α} : k ∈ d.keys ↔ ∃ v, d.get? k = some v := by
  rw [← not_iff_not, ← get?_eq_none]
  simp [Option.eq_none_iff_forall_ne_some]

@[simp] theorem get?_erase (d : Dict α β) (k x : α) :
    (d.erase k).get? x = if x = k then none else d.get? x := by
  simp only [get?, erase]
  induction d.entries with
  | nil => simp
  | cons e es ih =>
    by_cases he : e.1 = k
    · rw [List.filter_cons_of_neg (by simpa using he), ih, lookup_pair, he]
      split_ifs <;> rfl
    · rw [List.filter_cons_of_pos (by simpa using he), lookup_pair, ih, lookup_pair]
      split_ifs with hx hk <;> simp_all

theorem setEntries_of_notMem {k : α} {es : List (α × β)} (h : k ∉ es.map Prod.fst) (v : β) :
    setEntries k v es = es ++ [(k, v)] := by
  induction es with
  | nil => rfl
  | cons e es ih =>
    simp only [List.map_cons, List.mem_cons, not_or] at h
    simp [setEntries, Ne.symm h.1, ih h.2]

theorem entries_set_of_notMem {d : Dict α β} {k : α} (h : k ∉ d.keys) (v : β) :
    (d.set k v).entries = d.entries ++ [(k, v)] := setEntries_of_notMem h v

theorem setEntries_append {k : α} {pre : List (α × β)} (h : k ∉ pre.map Prod.fst) (v w : β) (post : List (α × β)) :
    setEntries k w (pre ++ (k, v) :: post) = pre ++ (k, w) :: post := by
  induction pre with
  | nil => simp [setEntries]
  | cons e pre ih =>
    rw [List.map_cons, List.mem_cons, not_or] at h
    rw [List.cons_append, setEntries, if_neg (Ne.symm h.1), ih h.2, List.cons_append]

theorem entries_set_split {d : Dict α β} {k : α} {v : β} {pre post : List (α × β)}
    (h : d.entries = pre ++ (k, v) :: post) (w : β) : (d.set k w).entries = pre ++ (k, w) :: post := by
  have hn := d.nodup
  rw [h, List.map_append, List.map_cons, List.nodup_middle, List.nodup_cons, List.mem_append, not_or] at hn
  change setEntries k w d.entries = _
  rw [h, setEntries_append hn.1.1]

theorem filter_set_sublist {p : α × β → Bool} (d : Dict α β) {k : α} {w : β} (hp : p (k, w) = false) :
    ((d.set k w).entries.filter p).Sublist (d.entries.filter p) := by
  by_cases hk : k ∈ d.keys
  · obtain ⟨⟨k, v⟩, hmem, rfl⟩ := List.mem_map.mp hk
    obtain ⟨pre, post, hsplit⟩ := List.append_of_mem hmem
    rw [entries_set_split hsplit, hsplit, List.filter_append, List.filter_append,
      List.filter_cons_of_neg (by simp [hp])]
    exact ((List.sublist_cons_self _ _).filter p).append_left _
  · rw [entries_set_of_notMem hk, List.filter_append, List.filter_cons_of_neg (by simp [hp]), List.filter_nil,
      List.append_nil]

theorem filter_setEntries (k : α) (v : β) (es : List (α × β)) :
    (setEntries k v es).filter (fun e => e.1 ≠ k) = es.filter fun e => e.1 ≠ k := by
  induction es with
  | nil => simp [setEntries]
  | cons e es ih =>
    simp only [setEntries]
    split_ifs with he
    · simp [he]
    · simp only [List.filter_cons, ih]

theorem erase_set (d : Dict α β) (k : α) (v : β) : (d.set k v).erase k = d.erase k :=
  ext (filter_setEntries k v d.entries)

theorem foldl_erase_prefix {d : Dict α β} {pre post : List (α × β)} (h : d.entries = pre ++ post) :
    (pre.foldl (fun d e => d.erase e.1) d).entries = post := by
  induction pre generalizing d with
  | nil => exact h
  | cons e pre ih =>
    rw [List.foldl_cons]
    apply ih
    have hn := d.nodup
    rw [h, List.cons_append, List.map_cons, List.nodup_cons] at hn
    change d.entries.filter _ = pre ++ post
    rw [h, List.cons_append, List.filter_cons_of_neg (by simp), List.filter_eq_self]
    intro e' he'
    have hne : e'.1 ≠ e.1 := fun heq => hn.1 (List.mem_map.mpr ⟨e', he', heq⟩)
    simpa using hne

theorem length_setEntries_of_mem {k : α} {es : List (α × β)} (h : k ∈ es.map Prod.fst) (v : β) :
    (setEntries k v es).length = es.length := by
  induction es with
  | nil => simp at h
  | cons e es ih =>
    simp only [setEntries]
    split_ifs with he
    · rfl
    · have hk : k ∈ es.map Prod.fst := by
        simp only [List.map_cons, List.mem_cons] at h
        exact h.resolve_left (Ne.symm he)
      simp [ih hk]

theorem length_set_of_mem {d : Dict α β} {k : α} (h : k ∈ d.keys) (v : β) :
    (d.set k v).entries.length = d.entries.length := length_setEntries_of_mem h v

def eraseAll (d : Dict α β) (ks : List α) : Dict α β := ks.foldl erase d

@[simp] theorem eraseAll_nil (d : Dict α β) : d.eraseAll [] = d := rfl

theorem eraseAll_sublist (d : Dict α β) (ks : List α) : (d.eraseAll ks).entries.Sublist d.entries := by
  induction ks generalizing d with
  | nil => exact .refl _
  | cons k ks ih => exact (ih (d.erase k)).trans List.filter_sublist

theorem get?_eraseAll (d : Dict α β) (ks : List α) (x : α) :
    (d.eraseAll ks).get? x = if x ∈ ks then none else d.get? x := by
  induction ks generalizing d with
  | nil => simp
  | cons k ks ih =>
    change ((d.erase k).eraseAll ks).get? x = _
    rw [ih, get?_erase]
    by_cases hk : x = k <;> by_cases hks : x ∈ ks <;> simp [hk, hks]

theorem mem_keys_eraseAll {d : Dict α β} {ks : List α} {x : α} :
    x ∈ (d.eraseAll ks).keys ↔ x ∉ ks ∧ x ∈ d.keys := by
  simp only [mem_keys, get?_eraseAll]
  by_cases hks : x ∈ ks <;> simp [hks]

def sumBy (f : β → ℕ) (d : Dict α β) : ℕ := (d.entries.map fun e => f e.2).sum

def sumAt (f : β → ℕ) (d : Dict α β) (k : α) : ℕ := ((d.get? k).map f).getD 0

theorem sum_setEntries (f : β → ℕ) (k : α) (v : β) (es : List (α × β)) :
    ((setEntries k v es).map fun e => f e.2).sum + ((es.lookup k).map f).getD 0 =
      (es.map fun e => f e.2).sum + f v := by
  induction es with
  | nil => simp [setEntries]
  | cons e es ih =>
    rw [lookup_pair]
    simp only [setEntries]
    by_cases he : e.1 = k
    · rw [if_pos he, if_pos he.symm]
      simp only [List.map_cons, List.sum_cons, Option.map_some, Option.getD_some]
      omega
    · rw [if_neg he, if_neg (Ne.symm he)]
      simp only [List.map_cons, List.sum_cons]
      omega

theorem sumBy_set (f : β → ℕ) (d : Dict α β) (k : α) (v : β) :
    sumBy f (d.set k v) + sumAt f d k = sumBy f d + f v := sum_setEntries f k v d.entries

theorem sum_filter (f : β → ℕ) (k : α) {es : List (α × β)} (hn : (es.map Prod.fst).Nodup) :
    ((es.filter fun e => e.1 ≠ k).map fun e => f e.2).sum + ((es.lookup k).map f).getD 0 =
      (es.map fun e => f e.2).sum := by
  induction es with
  | nil => rfl
  | cons e es ih =>
    rw [List.map_cons, List.nodup_cons] at hn
    have ih := ih hn.2
    rw [lookup_pair]
    by_cases he : e.1 = k
    · have hnone : es.lookup k = none := lookup_eq_none.mpr (he ▸ hn.1)
      rw [hnone] at ih
      rw [List.filter_cons_of_neg (by simpa using he), if_pos he.symm]
      simp only [List.map_cons, List.sum_cons, Option.map_some, Option.map_none, Option.getD_some,
        Option.getD_none] at ih ⊢
      omega
    · rw [List.filter_cons_of_pos (by simpa using he), if_neg (Ne.symm he)]
      simp only [List.map_cons, List.sum_cons]
      omega

theorem sumBy_erase (f : β → ℕ) (d : Dict α β) (k : α) :
    sumBy f (d.erase k) + sumAt f d k = sumBy f d := sum_filter f k d.nodup

def countP (p : β → Bool) (d : Dict α β) : ℕ := d.entries.countP fun e => p e.2

def countAt (p : β → Bool) (d : Dict α β) (k : α) : ℕ := if (d.get? k).any p then 1 else 0

omit [DecidableEq α] in
theorem countP_eq_sumBy (p : β → Bool) (d : Dict α β) :
    countP p d = sumBy (fun v => if p v then 1 else 0) d := by
  unfold countP sumBy
  induction d.entries with
  | nil => rfl
  | cons e es ih => rw [List.countP_cons, ih, List.map_cons, List.sum_cons, Nat.add_comm]

theorem countAt_eq_sumAt (p : β → Bool) (d : Dict α β) (k : α) :
    countAt p d k = sumAt (fun v => if p v then 1 else 0) d k := by
  unfold countAt sumAt
  cases d.get? k <;> rfl

theorem countP_set (p : β → Bool) (d : Dict α β) (k : α) (v : β) :
    countP p (d.set k v) + countAt p d k = countP p d + if p v then 1 else 0 := by
  rw [countP_eq_sumBy, countP_eq_sumBy, countAt_eq_sumAt]
  exact sumBy_set _ d k v

theorem countP_erase (p : β → Bool) (d : Dict α β) (k : α) :
    countP p (d.erase k) + countAt p d k = countP p d := by
  rw [countP_eq_sumBy, countP_eq_sumBy, countAt_eq_sumAt]
  exact sumBy_erase _ d k

theorem foldl_set_entries (es : List (α × β)) (d : Dict α β)
    (h : ((d.entries ++ es).map Prod.fst).Nodup) :
    (es.foldl (fun d e => d.set e.1 e.2) d).entries = d.entries ++ es := by
  induction es generalizing d with
  | nil => simp
  | cons e es ih =>
    have hn : e.1 ∉ d.entries.map Prod.fst := by
      rw [List.map_append, List.map_cons, List.nodup_append] at h
      exact fun hc => h.2.2 _ hc _ (by simp) rfl
    have hset : (d.set e.1 e.2).entries = d.entries ++ [e] := setEntries_of_notMem hn e.2
    rw [List.foldl_cons, ih _ (by rw [hset]; simpa using h), hset]
    simp

def filter (p : α × β → Bool) (d : Dict α β) : Dict α β :=
  ⟨d.entries.filter p, d.nodup.sublist (List.filter_sublist.map _)⟩

def setAll (d : Dict α β) (ks : List α) (v : β) : Dict α β := ks.foldl (fun d k => d.set k v) d

def update (d e : Dict α β) : Dict α β := e.entries.foldl (fun d e => d.set e.1 e.2) d

theorem get?_setAll (d : Dict α β) (ks : List α) (v : β) (x : α) :
    (d.setAll ks v).get? x = if x ∈ ks then some v else d.get? x := by
  induction ks generalizing d with
  | nil => simp [setAll]
  | cons k ks ih =>
    change ((d.set k v).setAll ks v).get? x = _
    rw [ih, get?_set]
    by_cases hk : x = k <;> by_cases hks : x ∈ ks <;> simp [hk, hks]

theorem get?_foldl_set {es : List (α × β)} (hn : (es.map Prod.fst).Nodup) (d : Dict α β) (x : α) :
    (es.foldl (fun d e => d.set e.1 e.2) d).get? x = (es.lookup x).or (d.get? x) := by
  induction es generalizing d with
  | nil => rfl
  | cons e es ih =>
    obtain ⟨hfresh, hn⟩ := List.nodup_cons.mp hn
    rw [List.foldl_cons, ih hn, get?_set, lookup_pair]
    by_cases hx : x = e.1
    · have hnone : es.lookup x = none := lookup_eq_none.mpr (hx ▸ hfresh)
      simp [hx, hx ▸ hnone]
    · simp [hx]

theorem get?_update (d e : Dict α β) (x : α) : (d.update e).get? x = (e.get? x).or (d.get? x) :=
  get?_foldl_set e.nodup d x

end Dict

end IpfsLite
