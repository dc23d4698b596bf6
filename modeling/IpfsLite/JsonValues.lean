import IpfsLite.DagJson
import IpfsLite.IpldFinite

/-! The values that `json.loads` returns. The encoders of nodes write each of them as it is. -/

namespace IpfsLite.Ipld

open Ipns PyInt PyJson PyStr PyValue

inductive IsJson : PyValue → Prop
  | none : IsJson .none
  | bool (b : Bool) : IsJson (.bool b)
  | int {i : ℤ} (h : ∃ s, PyInt.str i = .ok s) : IsJson (.int i)
  | float (bits : BitVec 64) : IsJson (.float bits)
  | str {s : PyStr} (h : s.paired = false) : IsJson (.str s)
  | list {items : List PyValue} (h : ∀ v ∈ items, IsJson v) : IsJson (.list items)
  | dict {items : List (PyValue × PyValue)} (hdistinct : KeysDistinct items)
      (hkeys : ∀ e ∈ items, isJsonStr e.1 = true) (hvalues : ∀ e ∈ items, IsJson e.2) : IsJson (.dict items)

section Integers

theorem ofDigitChars_lt {cs : List Char} (h : ∀ c ∈ cs, c.isDigit) :
    ∀ n, Nat.ofDigitChars 10 cs n < (n + 1) * 10 ^ cs.length := by
  induction cs with
  | nil =>
    intro n
    simp [Nat.ofDigitChars]
  | cons c cs ih =>
    intro n
    have hc := toNat_of_isDigit (h c (by simp))
    have hrest := ih (fun d hd => h d (List.mem_cons_of_mem c hd)) (10 * n + (c.toNat - '0'.toNat))
    have hzero : '0'.toNat = 48 := rfl
    rw [Nat.ofDigitChars_cons, List.length_cons, pow_succ]
    calc Nat.ofDigitChars 10 cs (10 * n + (c.toNat - '0'.toNat))
        < (10 * n + (c.toNat - '0'.toNat) + 1) * 10 ^ cs.length := hrest
      _ ≤ ((n + 1) * 10) * 10 ^ cs.length := Nat.mul_le_mul_right _ (by omega)
      _ = (n + 1) * (10 ^ cs.length * 10) := by ring

theorem isDecimal_digits : ∀ cs : List Char, isDecimal cs = true → ∀ c ∈ cs.filter (· ≠ '_'), c.isDigit := by
  intro cs
  induction cs using isDecimal.induct with
  | case1 => simp [isDecimal]
  | case2 c =>
    intro h d hd
    obtain rfl := List.mem_singleton.mp (List.mem_of_mem_filter hd)
    exact h
  | case3 c cs ih =>
    intro h d hd
    rw [isDecimal, Bool.and_eq_true] at h
    obtain ⟨hd, hne⟩ := List.mem_filter.mp hd
    rcases List.mem_cons.mp hd with rfl | hd
    · exact h.1
    · rcases List.mem_cons.mp hd with rfl | hd
      · simp at hne
      · exact ih h.2 d (List.mem_filter.mpr ⟨hd, hne⟩)
  | case4 c cs hcs hc ih =>
    intro h d hd
    rw [isDecimal.eq_4 c cs hcs hc, Bool.and_eq_true] at h
    obtain ⟨hd, hne⟩ := List.mem_filter.mp hd
    rcases List.mem_cons.mp hd with rfl | hd
    · exact h.1
    · exact ih h.2 d (List.mem_filter.mpr ⟨hd, hne⟩)

theorem unsigned_natAbs {cs : List Char} {i : ℤ} (h : unsigned cs = .ok i) : i.natAbs < 10 ^ maxStrDigits := by
  unfold unsigned at h
  dsimp only at h
  split_ifs at h with hdecimal hlong
  obtain rfl := Except.ok.inj h
  have hlt := ofDigitChars_lt (isDecimal_digits cs hdecimal) 0
  rw [Int.natAbs_natCast]
  calc Nat.ofDigitChars 10 (cs.filter (· ≠ '_')) 0 < (0 + 1) * 10 ^ (cs.filter (· ≠ '_')).length := hlt
    _ ≤ 10 ^ maxStrDigits := by
      rw [zero_add, one_mul]
      exact Nat.pow_le_pow_right (by decide) (Nat.not_lt.mp hlong)

theorem int_natAbs {toAscii : Char → Char} {s : String} {i : ℤ} (h : PyInt.int toAscii s = .ok i) :
    i.natAbs < 10 ^ maxStrDigits := by
  unfold PyInt.int at h
  split at h
  · obtain ⟨j, hj, rfl⟩ := map_ok.mp h
    rw [Int.natAbs_neg]
    exact unsigned_natAbs hj
  · exact unsigned_natAbs h
  · exact unsigned_natAbs h

theorem str_of_int {toAscii : Char → Char} {s : String} {i : ℤ} (h : PyInt.int toAscii s = .ok i) :
    ∃ t, PyInt.str i = .ok t := by
  have hlength := (Nat.length_toDigits_le_iff (b := 10) (by decide) (show 0 < maxStrDigits by decide)).mpr (int_natAbs h)
  exact ⟨toString i, if_neg (Nat.not_lt.mpr hlength)⟩

end Integers

section Dictionaries

theorem pyEq_strings {k l : PyValue} (hk : isJsonStr k = true) (hl : isJsonStr l = true) (h : pyEq k l = false) :
    pyEq l k = false := by
  cases k with
  | str s =>
    cases l with
    | str t =>
      simp only [pyEq, text?, decide_eq_false_iff_not, Option.some.injEq] at h ⊢
      exact fun heq => h heq.symm
    | _ => cases hl
  | _ => cases hk

theorem setItem_mem {es : List (PyValue × PyValue)} {k v : PyValue} {P : PyValue × PyValue → Prop}
    (hes : ∀ e ∈ es, P e) (hnew : ∀ l, (∃ e ∈ es, e.1 = l) ∨ l = k → P (l, v)) :
    ∀ f ∈ setItem es k v, P f := by
  induction es with
  | nil =>
    intro f hf
    rw [List.mem_singleton.mp hf]
    exact hnew k (.inr rfl)
  | cons e es ih =>
    intro f hf
    rw [setItem] at hf
    split at hf
    · rcases List.mem_cons.mp hf with rfl | hf
      · exact hnew e.1 (.inl ⟨e, by simp, rfl⟩)
      · exact hes f (List.mem_cons_of_mem e hf)
    · rcases List.mem_cons.mp hf with rfl | hf
      · exact hes e (by simp)
      · refine ih (fun f hf => hes f (List.mem_cons_of_mem e hf)) (fun l hl => hnew l ?_) f hf
        rcases hl with ⟨g, hg, hkey⟩ | hkey
        · exact .inl ⟨g, List.mem_cons_of_mem e hg, hkey⟩
        · exact .inr hkey

def JsonItems (es : List (PyValue × PyValue)) : Prop :=
  KeysDistinct es ∧ ∀ e ∈ es, isJsonStr e.1 = true ∧ IsJson e.2

theorem setItem_distinct {es : List (PyValue × PyValue)} {k v : PyValue} (hk : isJsonStr k = true)
    (hkeys : ∀ e ∈ es, isJsonStr e.1 = true) (h : KeysDistinct es) : KeysDistinct (setItem es k v) := by
  induction es with
  | nil => exact List.pairwise_singleton _ _
  | cons e es ih =>
    obtain ⟨hfirst, hrest⟩ := List.pairwise_cons.mp h
    have hlater (f : PyValue × PyValue) (hf : f ∈ es) : isJsonStr f.1 = true := hkeys f (List.mem_cons_of_mem e hf)
    rw [setItem]
    split
    · exact List.pairwise_cons.mpr ⟨hfirst, hrest⟩
    · next hne =>
      have hnew : pyEq e.1 k = false := by simpa using hne
      refine List.pairwise_cons.mpr ⟨fun f hf => ?_, ih hlater hrest⟩
      rcases setItem_keys f hf with hkey | ⟨g, hg, hkey⟩
      · rw [hkey]
        exact ⟨hnew, pyEq_strings (hkeys e (by simp)) hk hnew⟩
      · rw [hkey]
        exact hfirst g hg

theorem JsonItems.setItem {es : List (PyValue × PyValue)} {k v : PyValue} (h : JsonItems es)
    (hk : isJsonStr k = true) (hv : IsJson v) : JsonItems (setItem es k v) := by
  refine ⟨setItem_distinct hk (fun e he => (h.2 e he).1) h.1, setItem_mem h.2 ?_⟩
  rintro l (⟨e, he, rfl⟩ | rfl)
  · exact ⟨(h.2 e he).1, hv⟩
  · exact ⟨hk, hv⟩

theorem dictOf_json {ps : List (PyValue × PyValue)} (h : ∀ e ∈ ps, isJsonStr e.1 = true ∧ IsJson e.2) :
    JsonItems (dictOf ps) := by
  have hfold (d : List (PyValue × PyValue)) (hd : JsonItems d) :
      JsonItems (ps.foldl (fun d e => PyValue.setItem d e.1 e.2) d) := by
    induction ps generalizing d with
    | nil => exact hd
    | cons p ps ih =>
      obtain ⟨hkey, hvalue⟩ := h p (by simp)
      exact ih (fun e he => h e (List.mem_cons_of_mem p he)) _ (hd.setItem hkey hvalue)
  exact hfold [] ⟨List.Pairwise.nil, by simp⟩

end Dictionaries

section Scanning

variable {parseFloat : List Char → BitVec 64}

theorem scanAtom_json {cs rest : List Char} {v : PyValue} (h : scanAtom parseFloat cs = .ok (v, rest)) : IsJson v := by
  unfold scanAtom at h
  split at h
  · next m _ =>
    obtain ⟨w, hw, hpair⟩ := map_ok.mp h
    obtain rfl := (Prod.mk.inj hpair).1
    unfold NumberMatch.value at hw
    split_ifs at hw
    · obtain ⟨i, hi, rfl⟩ := map_ok.mp hw
      exact .int (str_of_int hi)
    · obtain rfl := Except.ok.inj hw
      exact .float _
  · split at h
    · next w hw =>
      obtain rfl := (Prod.mk.inj (Except.ok.inj h)).1
      have hmem := List.mem_of_find?_eq_some hw
      simp only [words, List.mem_cons, List.not_mem_nil, or_false] at hmem
      rcases hmem with rfl | rfl | rfl | rfl | rfl | rfl
      · exact .none
      · exact .bool true
      · exact .bool false
      · exact .float _
      · exact .float _
      · exact .float _
    · contradiction

/-- By induction on the characters that are left. -/
theorem scan_json (n : ℕ) :
    (∀ cs v rest, scanOnce parseFloat n cs = .ok (v, rest) → IsJson v) ∧
      (∀ cs vs rest, scanItems parseFloat n cs = .ok (vs, rest) → ∀ v ∈ vs, IsJson v) ∧
      ∀ cs es rest, scanMembers parseFloat n cs = .ok (es, rest) →
        ∀ e ∈ es, isJsonStr e.1 = true ∧ IsJson e.2 := by
  induction n with
  | zero =>
    refine ⟨?_, ?_, ?_⟩
    · intro cs v rest h
      contradiction
    · intro cs vs rest h
      contradiction
    · intro cs es rest h
      contradiction
  | succ n ih =>
    obtain ⟨ihonce, ihitems, ihmembers⟩ := ih
    refine ⟨?_, ?_, ?_⟩
    · intro cs v rest h
      unfold scanOnce at h
      split at h
      · obtain ⟨p, hp, hpair⟩ := map_ok.mp h
        obtain rfl := (Prod.mk.inj hpair).1
        exact .str (scanString_unpaired hp)
      · split at h
        · obtain rfl := (Prod.mk.inj (Except.ok.inj h)).1
          exact .dict List.Pairwise.nil (by simp) (by simp)
        · obtain ⟨p, hp, hpair⟩ := map_ok.mp h
          obtain rfl := (Prod.mk.inj hpair).1
          obtain ⟨hdistinct, hitems⟩ := dictOf_json (ihmembers _ _ _ hp)
          exact .dict hdistinct (fun e he => (hitems e he).1) fun e he => (hitems e he).2
      · split at h
        · obtain rfl := (Prod.mk.inj (Except.ok.inj h)).1
          exact .list (by simp)
        · obtain ⟨p, hp, hpair⟩ := map_ok.mp h
          obtain rfl := (Prod.mk.inj hpair).1
          exact .list (ihitems _ _ _ hp)
      · exact scanAtom_json h
    · intro cs vs rest h
      obtain ⟨⟨v, after⟩, hv, h⟩ := bind_ok.mp h
      have hfirst := ihonce _ _ _ hv
      dsimp only at h
      split at h
      · obtain rfl := (Prod.mk.inj (Except.ok.inj h)).1
        intro w hw
        rw [List.mem_singleton.mp hw]
        exact hfirst
      · obtain ⟨p, hp, hpair⟩ := map_ok.mp h
        obtain rfl := (Prod.mk.inj hpair).1
        exact List.forall_mem_cons.mpr ⟨hfirst, ihitems _ _ _ hp⟩
      · contradiction
    · intro cs es rest h
      unfold scanMembers at h
      split at h
      · obtain ⟨⟨key, after⟩, hkey, h⟩ := bind_ok.mp h
        dsimp only at h
        split at h
        · obtain ⟨⟨v, after⟩, hv, h⟩ := bind_ok.mp h
          have hfirst : isJsonStr (PyValue.str key) = true ∧ IsJson v :=
            ⟨by simp [isJsonStr, scanString_unpaired hkey], ihonce _ _ _ hv⟩
          dsimp only at h
          split at h
          · obtain rfl := (Prod.mk.inj (Except.ok.inj h)).1
            intro e he
            rw [List.mem_singleton.mp he]
            exact hfirst
          · obtain ⟨p, hp, hpair⟩ := map_ok.mp h
            obtain rfl := (Prod.mk.inj hpair).1
            exact List.forall_mem_cons.mpr ⟨hfirst, ihmembers _ _ _ hp⟩
          · contradiction
        · contradiction
      · contradiction

theorem jsonLoads_json {s : String} {v : PyValue} (h : jsonLoads parseFloat s = .ok v) : IsJson v := by
  unfold jsonLoads at h
  split_ifs at h
  obtain ⟨⟨w, cs⟩, hw, h⟩ := bind_ok.mp h
  dsimp only at h
  split_ifs at h
  obtain rfl := Except.ok.inj h
  exact (scan_json _).1 _ _ _ hw

end Scanning

section Encoding

variable {lib : NodeLib} {v : PyValue}

theorem map_fixed {α : Type*} {f : α → α} {l : List α} (h : ∀ a ∈ l, f a = a) : l.map f = l :=
  (List.map_congr_left h).trans (List.map_id' l)

theorem nodeItems_iff {vs : List PyValue} : NodeItems vs ↔ ∀ v ∈ vs, IsNode v := by
  induction vs with
  | nil => simp [NodeItems]
  | cons v vs ih => rw [NodeItems, ih, List.forall_mem_cons]

theorem eq_str_of_isJsonStr {k : PyValue} (h : isJsonStr k = true) : ∃ s : PyStr, k = .str s ∧ s.joined = s := by
  cases k with
  | str s => exact ⟨s, rfl, joined_eq_iff.mpr (by simpa [isJsonStr] using h)⟩
  | _ => cases h

theorem IsJson.isNode (h : IsJson v) : IsNode v := by
  induction h with
  | none | bool | int | float | str => rfl
  | list _ ih => exact nodeItems_iff.mpr ih
  | dict hdistinct hkeys _ ih =>
    refine ⟨hdistinct, nodeMembers_iff.mpr fun e he => ⟨?_, ih e he⟩⟩
    obtain ⟨s, hs, -⟩ := eq_str_of_isJsonStr (hkeys e he)
    rw [hs]
    rfl

theorem IsJson.convertIpldNodes (h : IsJson v) : convertIpldNodes v = v := by
  have hitems (vs : List PyValue) : convertItems vs = vs.map Ipld.convertIpldNodes := by
    induction vs with
    | nil => rfl
    | cons v vs ih => rw [convertItems, ih, List.map_cons]
  induction h with
  | none | bool | int | float | str => rfl
  | list _ ih => rw [Ipld.convertIpldNodes, hitems, map_fixed ih]
  | @dict items _ _ _ ih =>
    have hmembers : (items.map fun e => (e.1, Ipld.convertIpldNodes e.2)) = items := by
      apply map_fixed
      intro e he
      rw [ih e he]
    rw [Ipld.convertIpldNodes, convertValues_eq_map, hmembers]

theorem IsJson.jsonStored (h : IsJson v) : jsonStored lib.toIpldLib v = v := by
  have hitems (vs : List PyValue) : jsonStoredItems lib.toIpldLib vs = vs.map (Ipld.jsonStored lib.toIpldLib) := by
    induction vs with
    | nil => rfl
    | cons v vs ih => rw [jsonStoredItems, ih, List.map_cons]
  induction h with
  | none | bool | int | float => rfl
  | str h => rw [Ipld.jsonStored, joined_eq_iff.mpr h]
  | list _ ih => rw [Ipld.jsonStored, hitems, map_fixed ih]
  | @dict items hdistinct hkeys _ ih =>
    have hmembers : (items.map fun e =>
        (PyValue.str (keyText lib.toIpldLib e.1).joined, Ipld.jsonStored lib.toIpldLib e.2)) = items := by
      apply map_fixed
      rintro ⟨k, v⟩ he
      obtain ⟨s, rfl, hs⟩ := eq_str_of_isJsonStr (hkeys _ he)
      rw [ih _ he]
      exact congrArg (fun s => (PyValue.str s, v)) hs
    rw [Ipld.jsonStored, jsonStoredMembers_eq_map, hmembers, dictOf_distinct hdistinct]

theorem cborFloat_finite {bits : BitVec 64} (h : isFinite bits = true) : cborFloat bits = bits := if_neg fun hn => hn.1 h

theorem checkNan_items {vs : List PyValue} (h : checkNanItems vs = .ok ()) : ∀ v ∈ vs, checkNan v = .ok () := by
  induction vs with
  | nil => simp
  | cons v vs ih =>
    obtain ⟨_, hv, hvs⟩ := bind_ok.mp h
    exact List.forall_mem_cons.mpr ⟨hv, ih hvs⟩

theorem checkNan_members {es : List (PyValue × PyValue)} (h : checkNanValues es = .ok ()) :
    ∀ e ∈ es, checkNan e.2 = .ok () := by
  induction es with
  | nil => simp
  | cons e es ih =>
    obtain ⟨_, hv, hvs⟩ := bind_ok.mp h
    exact List.forall_mem_cons.mpr ⟨hv, ih hvs⟩

theorem IsJson.cborStored (h : IsJson v) (hnan : checkNan v = .ok ()) : cborStored v = v := by
  have hitems (vs : List PyValue) : cborStoredItems vs = vs.map Ipld.cborStored := by
    induction vs with
    | nil => rfl
    | cons v vs ih => rw [cborStoredItems, ih, List.map_cons]
  induction h with
  | none | bool | int | str => rfl
  | float bits => rw [Ipld.cborStored, cborFloat_finite (checkNan_float.mp hnan)]
  | list _ ih => rw [Ipld.cborStored, hitems, map_fixed fun v hv => ih v hv (checkNan_items hnan v hv)]
  | @dict items hdistinct hkeys _ ih =>
    have hmembers : (items.map fun e => (Ipld.cborStored e.1, Ipld.cborStored e.2)) = items := by
      apply map_fixed
      rintro ⟨k, v⟩ he
      obtain ⟨s, rfl, -⟩ := eq_str_of_isJsonStr (hkeys _ he)
      rw [ih _ he (checkNan_members hnan _ he)]
      rfl
    rw [Ipld.cborStored, cborStoredMembers_eq_map, hmembers, dictOf_distinct hdistinct]

theorem dagJsonItems_eq_map (vs : List PyValue) : dagJsonItems lib vs = vs.map (dagJson lib) := by
  induction vs with
  | nil => rfl
  | cons v vs ih => rw [dagJsonItems, ih, List.map_cons]

theorem dagJsonMembers_eq_map (es : List (PyValue × PyValue)) :
    dagJsonMembers lib es = es.map fun e => (.str (dagKeyText lib e.1).joined, dagJson lib e.2) := by
  induction es with
  | nil => rfl
  | cons e es ih => rw [dagJsonMembers, ih, List.map_cons]

theorem IsJson.dagJson (h : IsJson v) (hnan : checkNan v = .ok ()) : dagJson lib v = v := by
  induction h with
  | none | bool | int => rfl
  | str h => rw [Ipld.dagJson, joined_eq_iff.mpr h]
  | float bits => rw [Ipld.dagJson, cborFloat_finite (checkNan_float.mp hnan)]
  | list _ ih =>
    rw [Ipld.dagJson, dagJsonItems_eq_map, map_fixed fun v hv => ih v hv (checkNan_items hnan v hv)]
  | @dict items hdistinct hkeys _ ih =>
    have hmembers : (items.map fun e => (PyValue.str (dagKeyText lib e.1).joined, Ipld.dagJson lib e.2)) = items := by
      apply map_fixed
      rintro ⟨k, v⟩ he
      obtain ⟨s, rfl, hs⟩ := eq_str_of_isJsonStr (hkeys _ he)
      rw [ih _ he (checkNan_members hnan _ he)]
      exact congrArg (fun s => (PyValue.str s, v)) hs
    rw [Ipld.dagJson, dagJsonMembers_eq_map, hmembers, dictOf_distinct hdistinct]

theorem IsJson.dagText (h : IsJson v) : ∃ cs, dagText lib v = .ok cs := by
  have hitems {vs : List PyValue} (h : ∀ v ∈ vs, ∃ cs, Ipld.dagText lib v = .ok cs) :
      ∃ ts, dagTexts lib vs = .ok ts := by
    induction vs with
    | nil => exact ⟨[], rfl⟩
    | cons v vs ih =>
      obtain ⟨cs, hcs⟩ := h v (by simp)
      obtain ⟨ts, hts⟩ := ih fun w hw => h w (List.mem_cons_of_mem v hw)
      exact ⟨cs :: ts, bind_ok.mpr ⟨cs, hcs, bind_ok.mpr ⟨ts, hts, rfl⟩⟩⟩
  have hmembers {es : List (PyValue × PyValue)} (hkeys : ∀ e ∈ es, isJsonStr e.1 = true)
      (h : ∀ e ∈ es, ∃ cs, Ipld.dagText lib e.2 = .ok cs) : ∃ ts, dagMembers lib es = .ok ts := by
    induction es with
    | nil => exact ⟨[], rfl⟩
    | cons e es ih =>
      obtain ⟨s, hs, -⟩ := eq_str_of_isJsonStr (hkeys e (by simp))
      obtain ⟨cs, hcs⟩ := h e (by simp)
      obtain ⟨ts, hts⟩ := ih (fun f hf => hkeys f (List.mem_cons_of_mem e hf))
        fun f hf => h f (List.mem_cons_of_mem e hf)
      have hkey : dagKey lib e.1 = .ok s := by
        rw [hs]
        rfl
      exact ⟨jsMember s cs :: ts, bind_ok.mpr ⟨s, hkey, bind_ok.mpr ⟨cs, hcs, bind_ok.mpr ⟨ts, hts, rfl⟩⟩⟩⟩
  induction h with
  | none | bool | float | str => exact ⟨_, rfl⟩
  | int h =>
    obtain ⟨s, hs⟩ := h
    exact ⟨s.toList, map_ok.mpr ⟨s, hs, rfl⟩⟩
  | list _ ih =>
    obtain ⟨ts, hts⟩ := hitems ih
    exact ⟨_, bind_ok.mpr ⟨ts, hts, rfl⟩⟩
  | dict _ hkeys _ ih =>
    obtain ⟨ts, hts⟩ := hmembers hkeys ih
    exact ⟨_, bind_ok.mpr ⟨ts, hts, rfl⟩⟩

end Encoding

end IpfsLite.Ipld
