import Mathlib.Tactic
import Mathlib.Data.Rat.Floor

namespace IpfsLite

def roundHalfEven (q : ℚ) : ℤ :=
  if q - ⌊q⌋ < 1 / 2 then ⌊q⌋
  else if 1 / 2 < q - ⌊q⌋ then ⌊q⌋ + 1
  else if ⌊q⌋ % 2 = 0 then ⌊q⌋ else ⌊q⌋ + 1

def roundTo (decimals : ℕ) (q : ℚ) : ℚ := roundHalfEven (q * 10 ^ decimals) / 10 ^ decimals

theorem floor_le_roundHalfEven (q : ℚ) : ⌊q⌋ ≤ roundHalfEven q := by
  unfold roundHalfEven
  split_ifs <;> omega

theorem le_roundTo {decimals : ℕ} {n : ℤ} {q : ℚ} (h : (n : ℚ) / 10 ^ decimals ≤ q) :
    (n : ℚ) / 10 ^ decimals ≤ roundTo decimals q := by
  have hpos : (0 : ℚ) < 10 ^ decimals := by positivity
  have hn : n ≤ ⌊q * 10 ^ decimals⌋ := by
    rw [Int.le_floor]
    exact (div_le_iff₀ hpos).mp h
  have hround := hn.trans (floor_le_roundHalfEven _)
  rw [roundTo, div_le_div_iff_of_pos_right hpos]
  exact_mod_cast hround

end IpfsLite
