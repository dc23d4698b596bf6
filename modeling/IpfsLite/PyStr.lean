import Mathlib.Tactic

/-!
`str` of Python: a list of code points, of which some may be surrogates. One without is a `String`.
-/

namespace IpfsLite

/-- `surrogate n` is U+D800 + n: a high one for the first 1024, and then a low one. -/
inductive CodePoint
  | char (c : Char)
  | surrogate (n : Fin 2048)
deriving DecidableEq

namespace CodePoint

def char? : CodePoint → Option Char
  | .char c => some c
  | .surrogate _ => none

def isSurrogate (c : CodePoint) : Bool := c.char?.isNone

/-- The character that a high and a low surrogate are the halves of. -/
def pair? : CodePoint → CodePoint → Option Char
  | .surrogate high, .surrogate low =>
    if high.val < 1024 ∧ 1024 ≤ low.val then some (Char.ofNat (0x10000 + high.val * 1024 + (low.val - 1024)))
    else none
  | _, _ => none

def paired : List CodePoint → Bool
  | a :: b :: cs => (pair? a b).isSome || paired (b :: cs)
  | _ => false

def joinPairs : List CodePoint → List CodePoint
  | a :: b :: cs =>
    match pair? a b with
    | some c => .char c :: joinPairs cs
    | none => a :: joinPairs (b :: cs)
  | cs => cs

@[simp] theorem pair?_char_left (c : Char) (b : CodePoint) : pair? (.char c) b = none := rfl

@[simp] theorem pair?_char_right (a : CodePoint) (c : Char) : pair? a (.char c) = none := by
  cases a <;> rfl

theorem pair?_eq_some {a b : CodePoint} {c : Char} (h : pair? a b = some c) :
    ∃ high low : Fin 2048, a = .surrogate high ∧ b = .surrogate low ∧ high.val < 1024 ∧ 1024 ≤ low.val ∧
      c = Char.ofNat (0x10000 + high.val * 1024 + (low.val - 1024)) := by
  cases a with
  | char a => cases h
  | surrogate high =>
    cases b with
    | char b => cases h
    | surrogate low =>
      rw [pair?] at h
      split_ifs at h with hrange
      exact ⟨high, low, rfl, rfl, hrange.1, hrange.2, (Option.some.inj h).symm⟩

theorem joinPairs_cons (b : CodePoint) (cs : List CodePoint) :
    ∃ d ds, joinPairs (b :: cs) = d :: ds ∧ (d = b ∨ d.isSurrogate = false) := by
  cases cs with
  | nil => exact ⟨b, [], rfl, .inl rfl⟩
  | cons e cs =>
    rw [joinPairs]
    cases pair? b e with
    | some c => exact ⟨.char c, _, rfl, .inr rfl⟩
    | none => exact ⟨b, _, rfl, .inl rfl⟩

theorem paired_joinPairs (cs : List CodePoint) : paired (joinPairs cs) = false := by
  fun_induction joinPairs cs with
  | case1 a b cs c hpair ih =>
    cases h : joinPairs cs with
    | nil => rfl
    | cons d ds =>
      rw [h] at ih
      simpa [paired] using ih
  | case2 a b cs hpair ih =>
    obtain ⟨d, ds, h, hd⟩ := joinPairs_cons b cs
    rw [h] at ih ⊢
    have hnone : pair? a d = none := by
      rcases hd with rfl | hchar
      · exact hpair
      · cases d with
        | char c => exact pair?_char_right a c
        | surrogate n => cases hchar
    simpa [paired, hnone] using ih
  | case3 cs hshort =>
    rcases cs with _ | ⟨a, _ | ⟨b, cs⟩⟩
    · rfl
    · rfl
    · exact absurd rfl (hshort a b cs)

theorem joinPairs_of_unpaired {cs : List CodePoint} (h : paired cs = false) : joinPairs cs = cs := by
  fun_induction joinPairs cs with
  | case1 a b cs c hpair ih => simp [paired, hpair] at h
  | case2 a b cs hpair ih =>
    have hrest : paired (b :: cs) = false := by simpa [paired, hpair] using h
    rw [ih hrest]
  | case3 cs hshort => rfl

theorem paired_chars (s : List Char) : paired (s.map .char) = false := by
  induction s with
  | nil => rfl
  | cons c s ih =>
    cases s with
    | nil => rfl
    | cons d s => simpa [paired] using ih

end CodePoint

open CodePoint

inductive PyStr
  | text (s : String)
  | surrogates (cs : { cs : List CodePoint // cs.any isSurrogate })
deriving DecidableEq

namespace PyStr

instance : Coe String PyStr := ⟨.text⟩

def codePoints : PyStr → List CodePoint
  | .text s => s.toList.map .char
  | .surrogates cs => cs.1

def ofCodePoints (cs : List CodePoint) : PyStr :=
  if h : cs.any isSurrogate then .surrogates ⟨cs, h⟩ else .text (String.ofList (cs.filterMap char?))

def paired : PyStr → Bool
  | .text _ => false
  | .surrogates cs => CodePoint.paired cs.1

def joined : PyStr → PyStr
  | .text s => .text s
  | .surrogates cs => ofCodePoints (joinPairs cs.1)

theorem codePoints_ofCodePoints (cs : List CodePoint) : (ofCodePoints cs).codePoints = cs := by
  unfold ofCodePoints
  split_ifs with h
  · rfl
  · simp only [codePoints, String.toList_ofList]
    induction cs with
    | nil => rfl
    | cons c cs ih =>
      cases c with
      | char c =>
        have hrest : ¬cs.any isSurrogate := by simpa [isSurrogate, char?] using h
        simpa [char?] using ih hrest
      | surrogate n => simp [isSurrogate, char?] at h

theorem ofCodePoints_codePoints (s : PyStr) : ofCodePoints s.codePoints = s := by
  cases s with
  | text s =>
    have hnone : ¬(s.toList.map CodePoint.char).any isSurrogate := by simp [isSurrogate, char?]
    have hchars : (s.toList.map CodePoint.char).filterMap char? = s.toList := by
      rw [List.filterMap_map]
      exact List.filterMap_some
    rw [codePoints, ofCodePoints, dif_neg hnone, hchars, String.ofList_toList]
  | surrogates cs => exact dif_pos cs.2

theorem paired_eq (s : PyStr) : s.paired = CodePoint.paired s.codePoints := by
  cases s with
  | text s => exact (paired_chars s.toList).symm
  | surrogates cs => rfl

theorem joined_eq (s : PyStr) : s.joined = ofCodePoints (joinPairs s.codePoints) := by
  cases s with
  | text s =>
    have h := ofCodePoints_codePoints (.text s)
    rw [codePoints] at h
    rw [codePoints, joinPairs_of_unpaired (paired_chars s.toList), h]
    rfl
  | surrogates cs => rfl

theorem codePoints_joined (s : PyStr) : s.joined.codePoints = joinPairs s.codePoints := by
  rw [joined_eq, codePoints_ofCodePoints]

theorem paired_joined (s : PyStr) : s.joined.paired = false := by
  rw [paired_eq, codePoints_joined]
  exact paired_joinPairs _

theorem joined_eq_iff {s : PyStr} : s.joined = s ↔ s.paired = false := by
  constructor
  · intro h
    rw [← h]
    exact paired_joined s
  · intro h
    rw [paired_eq] at h
    rw [joined_eq, joinPairs_of_unpaired h, ofCodePoints_codePoints]

end PyStr

/-- What JSON can hold of a string: no pair of surrogates, as it has one text with the character. -/
abbrev JsonStr := { s : PyStr // s.paired = false }

def PyStr.toJson (s : PyStr) : JsonStr := ⟨s.joined, s.paired_joined⟩

end IpfsLite
