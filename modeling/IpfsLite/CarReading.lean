import IpfsLite.Car
import Mathlib.Data.Nat.Bitwise

namespace IpfsLite.Car

open Leb128

theorem and_127 (v : ℕ) : v &&& 0x7F = v % 128 := Nat.and_two_pow_sub_one_eq_mod v 7

theorem and_128_eq_zero {v : ℕ} (hv : v < 256) : v &&& 0x80 = 0 ↔ v < 128 := by
  have hbit : v &&& 0x80 = (v.testBit 7).toNat * 2 ^ 7 := Nat.and_two_pow v 7
  rw [hbit]
  constructor
  · intro h
    by_contra hge
    rw [Nat.testBit_of_two_pow_le_and_two_pow_add_one_gt (by omega) (by omega)] at h
    contradiction
  · intro hlt
    rw [Nat.testBit_lt_two_pow hlt]
    rfl

theorem or_shiftLeft {result shift : ℕ} (h : result < 2 ^ shift) (v : ℕ) :
    result ||| v <<< shift = result + v * 2 ^ shift := by
  rw [Nat.or_comm, ← Nat.shiftLeft_add_eq_or_of_lt h, Nat.shiftLeft_eq, Nat.add_comm]

def eofError (shift : ℕ) (rest : Bytes) : PyError :=
  if rest = [] ∧ shift = 0 then ⟨.typeError, "EOF"⟩ else ⟨.eofError, "Unexpected EOF reading varint"⟩

theorem readVarintFrom_eq (rest : Bytes) {shift result : ℕ} (h : result < 2 ^ shift) :
    readVarintFrom shift result rest = match decode rest with
      | some (n, r) => .ok (result + n * 2 ^ shift, r)
      | none => .error (eofError shift rest) := by
  induction rest generalizing shift result with
  | nil =>
    simp only [readVarintFrom, decode, eofError, true_and]
    split_ifs <;> rfl
  | cons b rest ih =>
    have hb : b.toNat < 256 := b.toNat_lt
    simp only [readVarintFrom, decode, and_127, and_128_eq_zero hb, or_shiftLeft h]
    by_cases hlast : b.toNat < 128
    · simp [hlast, Nat.mod_eq_of_lt]
    · have hmod : b.toNat % 128 + 1 ≤ 128 := by omega
      have hnext : result + b.toNat % 128 * 2 ^ shift < 2 ^ (shift + 7) := by
        calc result + b.toNat % 128 * 2 ^ shift
            < 2 ^ shift + b.toNat % 128 * 2 ^ shift := Nat.add_lt_add_right h _
          _ = (b.toNat % 128 + 1) * 2 ^ shift := by ring
          _ ≤ 128 * 2 ^ shift := Nat.mul_le_mul_right _ hmod
          _ = 2 ^ (shift + 7) := by ring
      rw [if_neg hlast, if_neg hlast, ih hnext]
      cases hd : decode rest with
      | none => simp [eofError]
      | some r =>
        simp only [Option.map_some, Except.ok.injEq, Prod.mk.injEq, and_true]
        ring

theorem readVarint_eq (rest : Bytes) : readVarint rest = match decode rest with
    | some r => .ok r
    | none => .error (eofError 0 rest) := by
  rw [readVarint, readVarintFrom_eq rest (by decide)]
  cases decode rest <;> simp

theorem readVarint_ok {bytes rest : Bytes} {n : ℕ} :
    readVarint bytes = .ok (n, rest) ↔ ∃ p, bytes = p ++ rest ∧ Encodes p n := by
  rw [readVarint_eq]
  constructor
  · intro h
    cases hd : decode bytes with
    | none => simp [hd] at h
    | some r =>
      obtain rfl : r = (n, rest) := by simpa [hd] using h
      exact decode_encodes hd
  · rintro ⟨p, rfl, hp⟩
    rw [hp.decode]

theorem readVarint_encode (n : ℕ) (rest : Bytes) : readVarint (encode n ++ rest) = .ok (n, rest) :=
  readVarint_ok.mpr ⟨encode n, rfl, encode_encodes n⟩

theorem readVarint_eof {bytes : Bytes} {e : PyError} (h : readVarint bytes = .error e)
    (he : e.type = .typeError) : bytes = [] := by
  rw [readVarint_eq] at h
  cases hd : decode bytes with
  | some r => simp [hd] at h
  | none =>
    obtain rfl : eofError 0 bytes = e := by simpa [hd] using h
    unfold eofError at he
    split_ifs at he with hb
    exact hb.1

theorem readMore_eq (f : FileReads) {n : ℕ} (hn : n ≤ sysMaxsize) (k : ℕ) (data rest : Bytes)
    (hk : n ≤ data.length + k) : readMore f k n data rest =
      if n - data.length ≤ rest.length then
        .ok (data ++ rest.take (n - data.length), rest.drop (n - data.length))
      else .error ⟨.eofError, "Unexpected EOF"⟩ := by
  induction k generalizing data rest with
  | zero =>
    have hz : n - data.length = 0 := by omega
    simp [readMore, hz]
  | succ k ih =>
    unfold readMore
    by_cases hlt : data.length < n
    · have hpos := f.size_pos rest.length (n - data.length)
      have hle := f.size_le rest.length (n - data.length)
      rw [if_pos hlt, read, if_neg (by omega)]
      generalize f.size rest.length (n - data.length) = s at hpos hle
      by_cases hrest : rest = []
      · rw [if_neg (by simp [hrest]; omega)]
        simp [hrest]
      · have hlen : 0 < rest.length := List.length_pos_of_ne_nil hrest
        have hs : 0 < s := hpos hlen (by omega)
        have hne : rest.take s ≠ [] := by simp [hrest]; omega
        simp only [hne, if_false]
        rw [ih _ _ (by simp; omega)]
        by_cases hfits : n - data.length ≤ rest.length
        · have htake : (rest.take s).length = s := by simp; omega
          have hsum : n - (data ++ rest.take s).length = n - data.length - s := by
            rw [List.length_append, htake]
            omega
          have hsplit : n - data.length = s + (n - data.length - s) := by omega
          rw [if_pos (by rw [hsum, List.length_drop]; omega), if_pos hfits, hsum, List.drop_drop,
            List.append_assoc, ← List.take_add, ← hsplit]
        · rw [if_neg (by simp; omega), if_neg hfits]
    · have hz : n - data.length = 0 := by omega
      rw [if_neg hlt]
      simp [hz]

theorem readExactly_ok {f : FileReads} {n : ℕ} {bytes data rest : Bytes} :
    readExactly f n bytes = .ok (data, rest) ↔
      n ≤ sysMaxsize ∧ data.length = n ∧ bytes = data ++ rest := by
  unfold readExactly
  by_cases hn : n ≤ sysMaxsize
  · rw [readMore_eq f hn n [] bytes (by simp)]
    simp only [List.length_nil, Nat.sub_zero, List.nil_append, hn, true_and]
    constructor
    · intro h
      split_ifs at h with hlen
      obtain ⟨rfl, rfl⟩ : bytes.take n = data ∧ bytes.drop n = rest := by simpa using h
      exact ⟨by simp [hlen], (List.take_append_drop n bytes).symm⟩
    · rintro ⟨rfl, rfl⟩
      simp
  · have hover : readMore f n n [] bytes =
        .error ⟨.overflowError, "cannot fit 'int' into an index-sized integer"⟩ := by
      cases n with
      | zero => omega
      | succ n =>
        unfold readMore
        rw [if_pos (by simp), read, if_pos (by simpa using hn)]
    simp [hover, hn]

end IpfsLite.Car
