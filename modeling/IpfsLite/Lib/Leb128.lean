import Mathlib.Tactic

/-!
Unsigned LEB128 and records framed by their length. A byte of 128 or more says that another group
of seven bits follows; the groups of `encode` are as few as possible, those of `Encodes` need not be.
-/

namespace IpfsLite.Leb128

def encodeAux : ℕ → ℕ → List UInt8
  | 0, n => [.ofNat n]
  | k + 1, n => if n < 128 then [.ofNat n] else .ofNat (n % 128 + 128) :: encodeAux k (n / 128)

def encode (n : ℕ) : List UInt8 := encodeAux n n

inductive Encodes : List UInt8 → ℕ → Prop
  | last {b : UInt8} (hb : b.toNat < 128) : Encodes [b] b.toNat
  | more {b : UInt8} {p : List UInt8} {n : ℕ} (hb : 128 ≤ b.toNat) (h : Encodes p n) :
      Encodes (b :: p) (b.toNat % 128 + 128 * n)

def decode : List UInt8 → Option (ℕ × List UInt8)
  | [] => none
  | b :: bs =>
    if b.toNat < 128 then some (b.toNat, bs)
    else (decode bs).map (fun r => (b.toNat % 128 + 128 * r.1, r.2))

theorem encodeAux_encodes (k n : ℕ) (h : n ≤ k) : Encodes (encodeAux k n) n := by
  have hbyte (m : ℕ) (hm : m < 256) : (UInt8.ofNat m).toNat = m := by
    rw [UInt8.toNat_ofNat']
    omega
  induction k generalizing n with
  | zero =>
    obtain rfl : n = 0 := by omega
    exact .last (by decide)
  | succ k ih =>
    simp only [encodeAux]
    split_ifs with hn
    · have h := Encodes.last (b := .ofNat n) (by rw [hbyte n (by omega)]; omega)
      rwa [hbyte n (by omega)] at h
    · have hb := hbyte (n % 128 + 128) (by omega)
      have h := Encodes.more (b := .ofNat (n % 128 + 128)) (by rw [hb]; omega)
        (ih (n / 128) (by omega))
      rw [hb] at h
      have hsum : (n % 128 + 128) % 128 + 128 * (n / 128) = n := by omega
      rwa [hsum] at h

theorem encode_encodes (n : ℕ) : Encodes (encode n) n := encodeAux_encodes n n le_rfl

theorem Encodes.decode {p : List UInt8} {n : ℕ} (h : Encodes p n) (rest : List UInt8) :
    decode (p ++ rest) = some (n, rest) := by
  induction h with
  | last hb => simp [Leb128.decode, hb]
  | more hb _ ih => simp [Leb128.decode, ih, Nat.not_lt.mpr hb]

theorem decode_encodes {bs rest : List UInt8} {n : ℕ} (h : decode bs = some (n, rest)) :
    ∃ p, bs = p ++ rest ∧ Encodes p n := by
  induction bs generalizing n with
  | nil => contradiction
  | cons b bs ih =>
    simp only [decode] at h
    split_ifs at h with hb
    · obtain ⟨rfl, rfl⟩ : b.toNat = n ∧ bs = rest := by simpa using h
      exact ⟨[b], rfl, .last hb⟩
    · obtain ⟨⟨m, r⟩, hm, he⟩ := Option.map_eq_some_iff.mp h
      obtain ⟨rfl, rfl⟩ : b.toNat % 128 + 128 * m = n ∧ r = rest := by simpa using he
      obtain ⟨p, rfl, hp⟩ := ih hm
      exact ⟨b :: p, rfl, .more (by omega) hp⟩

theorem decode_encode (n : ℕ) (rest : List UInt8) : decode (encode n ++ rest) = some (n, rest) :=
  (encode_encodes n).decode rest

theorem Encodes.ne_nil {p : List UInt8} {n : ℕ} (h : Encodes p n) : p ≠ [] := by
  cases h <;> simp

theorem Encodes.split {p q r s : List UInt8} {n m : ℕ} (hp : Encodes p n) (hq : Encodes q m)
    (h : p ++ r = q ++ s) : n = m ∧ p = q ∧ r = s := by
  have hd := hp.decode r
  rw [h, hq.decode s] at hd
  obtain ⟨rfl, rfl⟩ : m = n ∧ s = r := by simpa using hd
  exact ⟨rfl, List.append_cancel_right h, rfl⟩

def frame (body : List UInt8) : List UInt8 := encode body.length ++ body

inductive Framed : List UInt8 → List (List UInt8) → Prop
  | nil : Framed [] []
  | cons {p body rest : List UInt8} {bodies : List (List UInt8)} (hp : Encodes p body.length)
      (h : Framed rest bodies) : Framed (p ++ (body ++ rest)) (body :: bodies)

theorem Encodes.split_body {p q body body' r s : List UInt8} (hp : Encodes p body.length)
    (hq : Encodes q body'.length) (h : p ++ (body ++ r) = q ++ (body' ++ s)) :
    p = q ∧ body = body' ∧ r = s := by
  obtain ⟨hlen, rfl, hrest⟩ := hp.split hq h
  exact ⟨rfl, List.append_inj hrest hlen⟩

theorem Framed.no_empty {w v z r : List UInt8} {bodies bodies' : List (List UInt8)}
    (hw : Framed w bodies) (hv : Framed v bodies') (hne : ∀ b ∈ bodies, b ≠ [])
    (hz : Encodes z 0) (h : w = v ++ (z ++ r)) : False := by
  induction hv generalizing w bodies with
  | nil =>
    rw [List.nil_append] at h
    cases hw with
    | nil => exact hz.ne_nil (List.append_eq_nil_iff.mp h.symm).1
    | @cons p body rest bodies hp _ =>
      obtain ⟨hlen, -, -⟩ := hp.split hz h
      exact hne body (by simp) (List.length_eq_zero_iff.mp hlen)
  | @cons q body' rest' bodies' hq _ ih =>
    cases hw with
    | nil =>
      have hnil : q = [] := by
        have := h.symm
        simp only [List.append_assoc, List.append_eq_nil_iff] at this
        exact this.1
      exact hq.ne_nil hnil
    | @cons p body rest bodies hp hrest =>
      simp only [List.append_assoc] at h
      obtain ⟨-, -, hr⟩ := hp.split_body hq h
      exact ih hrest (fun b hb => hne b (by simp [hb])) hr

end IpfsLite.Leb128
