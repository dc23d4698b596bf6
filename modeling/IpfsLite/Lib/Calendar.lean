import Mathlib.Tactic

namespace IpfsLite.Calendar

def isLeap (year : ℤ) : Bool := year % 4 = 0 && (year % 100 ≠ 0 || year % 400 = 0)

def daysInYear (year : ℤ) : ℤ := if isLeap year then 366 else 365

def daysInMonth (leap : Bool) (month : ℕ) : ℕ :=
  if month = 2 then (if leap then 29 else 28)
  else if month ∈ [4, 6, 9, 11] then 30
  else 31

def daysBeforeYear (year : ℤ) : ℤ :=
  (year - 1) * 365 + (year - 1) / 4 - (year - 1) / 100 + (year - 1) / 400

def daysBeforeMonth (leap : Bool) (month : ℕ) : ℕ :=
  ((List.range' 1 (month - 1)).map (daysInMonth leap)).sum

def yearOf (n : ℤ) : ℤ :=
  let day400 := (n - 1) % 146097
  let day100 := day400 % 36524
  let day4 := day100 % 1461
  let year := (n - 1) / 146097 * 400 + day400 / 36524 * 100 + day100 / 1461 * 4 + day4 / 365
  if day4 / 365 = 4 ∨ day400 / 36524 = 4 then year else year + 1

def monthOf (leap : Bool) (day : ℕ) : ℕ :=
  ((List.range' 1 12).filter (daysBeforeMonth leap · < day)).length

/-- The year that follows `c` years of a cycle of four, `b` such cycles, `a` centuries and `q` cycles
of four hundred. -/
theorem daysBeforeYear_cycles {q a b c : ℤ} (ha : 0 ≤ a ∧ a < 4) (hb : 0 ≤ b ∧ b < 25)
    (hc : 0 ≤ c ∧ c < 4) : daysBeforeYear (q * 400 + a * 100 + b * 4 + c + 1) =
      q * 146097 + a * 36524 + b * 1461 + c * 365 := by
  have h4 : (q * 400 + a * 100 + b * 4 + c) / 4 = q * 100 + a * 25 + b := by omega
  have h100 : (q * 400 + a * 100 + b * 4 + c) / 100 = q * 4 + a := by omega
  have h400 : (q * 400 + a * 100 + b * 4 + c) / 400 = q := by omega
  rw [daysBeforeYear, Int.add_sub_cancel, h4, h100, h400]
  omega

theorem isLeap_cycles {q a b c : ℤ} (ha : 0 ≤ a ∧ a < 4) (hb : 0 ≤ b ∧ b < 25) (hc : 0 ≤ c ∧ c < 4) :
    isLeap (q * 400 + a * 100 + b * 4 + c + 1) = decide (c = 3 ∧ (b ≠ 24 ∨ a = 3)) := by
  have h4 : (q * 400 + a * 100 + b * 4 + c + 1) % 4 = 0 ↔ c = 3 := by omega
  have h100 : (q * 400 + a * 100 + b * 4 + c + 1) % 100 = 0 ↔ c = 3 ∧ b = 24 := by omega
  have h400 : (q * 400 + a * 100 + b * 4 + c + 1) % 400 = 0 ↔ c = 3 ∧ b = 24 ∧ a = 3 := by omega
  simp only [isLeap, h4, ne_eq, h100, h400]
  by_cases hc3 : c = 3 <;> by_cases hb24 : b = 24 <;> simp [hc3, hb24]

theorem yearOf_cycles (n : ℤ) : ∃ q a b c u : ℤ,
    (0 ≤ a ∧ a < 4) ∧ (0 ≤ b ∧ b < 25) ∧ (0 ≤ c ∧ c < 4) ∧
    yearOf n = q * 400 + a * 100 + b * 4 + c + 1 ∧
    n = q * 146097 + a * 36524 + b * 1461 + c * 365 + u + 1 ∧
    0 ≤ u ∧ (u < 365 ∨ u = 365 ∧ c = 3 ∧ (b ≠ 24 ∨ a = 3)) := by
  let a := (n - 1) % 146097 / 36524
  let b := (n - 1) % 146097 % 36524 / 1461
  let c := (n - 1) % 146097 % 36524 % 1461 / 365
  by_cases ha : a = 4
  · -- the last day of four hundred years
    refine ⟨(n - 1) / 146097, 3, 24, 3, 365, by omega, by omega, by omega, ?_, by omega, by omega⟩
    rw [yearOf, if_pos (.inr ha)]
    omega
  by_cases hc : c = 4
  · -- the last day of four years
    refine ⟨(n - 1) / 146097, a, b, 3, 365, by omega, by omega, by omega, ?_, by omega, by omega⟩
    rw [yearOf, if_pos (.inl hc)]
    omega
  refine ⟨(n - 1) / 146097, a, b, c, (n - 1) % 146097 % 36524 % 1461 % 365, by omega, by omega,
    by omega, ?_, by omega, by omega⟩
  rw [yearOf, if_neg (not_or.mpr ⟨hc, ha⟩)]

theorem dayOfYear_mem (n : ℤ) : 0 < n - daysBeforeYear (yearOf n) ∧
    n - daysBeforeYear (yearOf n) ≤ daysInYear (yearOf n) := by
  obtain ⟨q, a, b, c, u, ha, hb, hc, hy, hn, hu⟩ := yearOf_cycles n
  rw [hy, daysInYear, isLeap_cycles ha hb hc, daysBeforeYear_cycles ha hb hc]
  split_ifs with hl
  · omega
  · simp only [decide_eq_true_eq] at hl
    omega

theorem yearOf_mem {n : ℤ} (hlow : 0 < n) (hhigh : n ≤ 3652059) : 1 ≤ yearOf n ∧ yearOf n ≤ 9999 := by
  obtain ⟨q, a, b, c, u, ha, hb, hc, hy, hn, hu⟩ := yearOf_cycles n
  omega

theorem daysBeforeMonth_succ (leap : Bool) {month : ℕ} (h : 0 < month) :
    daysBeforeMonth leap (month + 1) = daysBeforeMonth leap month + daysInMonth leap month := by
  have hrange : List.range' 1 month = List.range' 1 (month - 1) ++ [month] := by
    have hconcat : List.range' 1 (month - 1 + 1) = List.range' 1 (month - 1) ++ [1 + 1 * (month - 1)] :=
      List.range'_concat
    rw [Nat.sub_add_cancel h, Nat.one_mul, Nat.add_sub_cancel' h] at hconcat
    exact hconcat
  rw [daysBeforeMonth, Nat.add_sub_cancel, hrange, List.map_append, List.sum_append]
  rfl

theorem daysBeforeMonth_mono (leap : Bool) : Monotone (daysBeforeMonth leap) := by
  apply monotone_nat_of_le_succ
  intro month
  cases month with
  | zero => rfl
  | succ month =>
    rw [daysBeforeMonth_succ leap (Nat.succ_pos month)]
    exact Nat.le_add_right _ _

theorem below_iff_le_length {f : ℕ → ℕ} (hf : Monotone f) (bound : ℕ) : ∀ n k, 0 < k → k ≤ n →
    (f k < bound ↔ k ≤ ((List.range' 1 n).filter (f · < bound)).length) := by
  intro n
  induction n with
  | zero =>
    intro k hk hn
    omega
  | succ n ih =>
    intro k hk hn
    have hlength := List.length_filter_le (f · < bound) (List.range' 1 n)
    rw [List.length_range'] at hlength
    rw [List.range'_concat, List.filter_append, List.length_append, Nat.one_mul, Nat.add_comm 1 n]
    by_cases hlast : f (n + 1) < bound
    · have hbelow : f k < bound := (hf hn).trans_lt hlast
      have hall (h : 0 < n) : n ≤ ((List.range' 1 n).filter (f · < bound)).length :=
        (ih n h le_rfl).mp ((hf (Nat.le_succ n)).trans_lt hlast)
      simp only [hbelow, List.filter_cons, hlast, decide_true, if_true, List.filter_nil, List.length_singleton,
        true_iff]
      omega
    · simp only [List.filter_cons, hlast, decide_false, Bool.false_eq_true, if_false, List.filter_nil,
        List.length_nil, Nat.add_zero]
      rcases Nat.lt_succ_iff_lt_or_eq.mp (Nat.lt_succ_of_le hn) with hk' | rfl
      · exact ih k hk (by omega)
      · simp only [hlast, false_iff]
        omega

def InMonth (leap : Bool) (month day : ℕ) : Prop := (1 ≤ month ∧ month ≤ 12) ∧
  daysBeforeMonth leap month < day ∧ day ≤ daysBeforeMonth leap month + daysInMonth leap month

instance (leap : Bool) (month day : ℕ) : Decidable (InMonth leap month day) :=
  inferInstanceAs (Decidable (_ ∧ _))

theorem monthOf_inMonth {leap : Bool} {day : ℕ} (hlow : 0 < day)
    (hhigh : day ≤ if leap then 366 else 365) : InMonth leap (monthOf leap day) day := by
  have hmonths := below_iff_le_length (daysBeforeMonth_mono leap) day 12
  have hlength := List.length_filter_le (daysBeforeMonth leap · < day) (List.range' 1 12)
  change ∀ k, 0 < k → k ≤ 12 → (_ ↔ k ≤ monthOf leap day) at hmonths
  change monthOf leap day ≤ 12 at hlength
  have hfirst : 1 ≤ monthOf leap day := (hmonths 1 (by decide) (by decide)).mp hlow
  refine ⟨⟨hfirst, hlength⟩, (hmonths _ hfirst hlength).mpr le_rfl, ?_⟩
  rw [← daysBeforeMonth_succ leap hfirst]
  by_cases hlast : monthOf leap day = 12
  · rw [hlast]
    cases leap <;> exact hhigh
  · apply Nat.le_of_not_lt
    intro hnext
    have := (hmonths _ (Nat.succ_pos _) (by omega)).mp hnext
    omega

structure Date where
  year : ℤ
  month : ℕ
  day : ℕ
  month_mem : 1 ≤ month ∧ month ≤ 12
  day_mem : 1 ≤ day ∧ day ≤ daysInMonth (isLeap year) month

def Date.ordinal (d : Date) : ℤ :=
  daysBeforeYear d.year + daysBeforeMonth (isLeap d.year) d.month + d.day

def dayOfYear (n : ℤ) : ℕ := (n - daysBeforeYear (yearOf n)).toNat

theorem dayOfYear_inMonth (n : ℤ) :
    InMonth (isLeap (yearOf n)) (monthOf (isLeap (yearOf n)) (dayOfYear n)) (dayOfYear n) := by
  have h := dayOfYear_mem n
  have hd : (dayOfYear n : ℤ) = n - daysBeforeYear (yearOf n) := Int.toNat_of_nonneg (by omega)
  rw [← hd, daysInYear] at h
  apply monthOf_inMonth
  · omega
  · split_ifs at h ⊢ <;> omega

def Date.ofOrdinal (n : ℤ) : Date where
  year := yearOf n
  month := monthOf (isLeap (yearOf n)) (dayOfYear n)
  day := dayOfYear n - daysBeforeMonth (isLeap (yearOf n)) (monthOf (isLeap (yearOf n)) (dayOfYear n))
  month_mem := (dayOfYear_inMonth n).1
  day_mem := by
    have h := (dayOfYear_inMonth n).2
    omega

theorem Date.ordinal_ofOrdinal (n : ℤ) : (Date.ofOrdinal n).ordinal = n := by
  have h := (dayOfYear_inMonth n).2.1
  have hd : (dayOfYear n : ℤ) = n - daysBeforeYear (yearOf n) :=
    Int.toNat_of_nonneg (Int.le_of_lt (dayOfYear_mem n).1)
  simp only [ordinal, ofOrdinal]
  omega

end IpfsLite.Calendar
