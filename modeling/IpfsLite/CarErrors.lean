import IpfsLite.CarImport

namespace IpfsLite.Car

open Leb128

def Handled (type : ExcType) : Prop := isCaught type ∨ type = .carParseError

structure RaisesCaught (lib : CarLib) : Prop where
  varintDecode : ∀ data, RaisesOnly (isCaught ·) (lib.varintDecode data)
  cborLoads : ∀ data, RaisesOnly (isCaught ·) (lib.cborLoads data)
  parseCid : ∀ s, RaisesOnly (isCaught ·) (lib.parseCid s)
  parseCidBytes : ∀ b, RaisesOnly (isCaught ·) (lib.parseCidBytes b)
  multihashDecode : ∀ b, RaisesOnly (isCaught ·) (lib.multihashDecode b)
  getOther : ∀ v key, RaisesOnly (isCaught ·) (lib.getOther v key)
  iterOther : ∀ v, RaisesOnly (isCaught ·) (lib.iterOther v)

def DigestOverflows (lib : CarLib) (data : Bytes) : Prop :=
  ¬(data.length ≥ 34 ∧ data[0]? = some 0x12 ∧ data[1]? = some 0x20) ∧
    ∃ version codec mhCode mhLen stream₁ stream₂ stream₃ stream₄,
      lib.varintDecode data = .ok (version, stream₁) ∧
      lib.varintDecode stream₁ = .ok (codec, stream₂) ∧
      lib.varintDecode stream₂ = .ok (mhCode, stream₃) ∧
      lib.varintDecode stream₃ = .ok (mhLen, stream₄) ∧ sysMaxsize < mhLen

inductive Overflows (lib : CarLib) : Bytes → Prop
  | length {p rest : Bytes} {n : ℕ} (hp : Encodes p n) (hn : sysMaxsize < n) : Overflows lib (p ++ rest)
  | digest {p full rest : Bytes} (hp : Encodes p full.length) (hn : full.length ≤ sysMaxsize)
      (hne : full ≠ []) (hd : DigestOverflows lib full) : Overflows lib (p ++ (full ++ rest))
  | next {p full rest : Bytes} {block : Bytes × Bytes} (hp : Encodes p full.length)
      (hn : full.length ≤ sysMaxsize) (hne : full ≠ []) (hb : readBlock lib full = .ok block)
      (h : Overflows lib rest) : Overflows lib (p ++ (full ++ rest))

structure Contained (lib : CarLib) (bytes : Bytes) : Prop where
  ends : bytes ≠ [] → ∃ b ∈ bytes, b.toNat < 128
  header : ∀ p n rest, bytes = p ++ rest → Encodes p n → n ≤ sysMaxsize
  sections : ∀ p headerBytes header roots rest, bytes = p ++ (headerBytes ++ rest) →
    Encodes p headerBytes.length → lib.cborLoads headerBytes = .ok header →
    headerRoots lib header = .ok roots → ¬Overflows lib rest

variable {lib : CarLib} {f : FileReads} {strict : Bool} {store : Store}

theorem handled_of_caught {α : Type*} {r : Except PyError α} (h : RaisesOnly (isCaught ·) r) :
    RaisesOnly Handled r := fun e he => .inl (h e he)

theorem parseFailure_type (e : PyError) : (parseFailure e).type = .carParseError ↔ Handled e.type := by
  unfold parseFailure Handled
  split_ifs with h
  · simp [h]
  · simp [h]

theorem decode_eq_none {bytes : Bytes} : decode bytes = none ↔ ∀ b ∈ bytes, 128 ≤ b.toNat := by
  induction bytes with
  | nil => simp [decode]
  | cons b bytes ih =>
    unfold decode
    split_ifs with hb
    · simp [hb]
    · simp [ih, not_lt.mp hb]

theorem readExactly_handled {n : ℕ} {bytes : Bytes} :
    RaisesOnly Handled (readExactly f n bytes) ↔ n ≤ sysMaxsize := by
  by_cases hn : n ≤ sysMaxsize
  · refine iff_of_true ?_ hn
    rw [readExactly, readMore_eq f hn n [] bytes (by simp)]
    split_ifs
    · exact raisesOnly_ok _
    · exact raisesOnly_error.mpr (.inl rfl)
  · refine iff_of_false (fun h => ?_) hn
    cases n with
    | zero => omega
    | succ n =>
      rw [readExactly, readMore, if_pos (by simp), read, if_pos (by simpa using hn)] at h
      exact absurd (raisesOnly_error.mp h) (by simp [Handled, isCaught, ExcType.isValueError])

theorem parseCidValue_handled (hlib : RaisesCaught lib) (v : PyValue) :
    RaisesOnly Handled (parseCidValue lib.toDagLib v) := by
  unfold parseCidValue
  split
  · exact handled_of_caught (hlib.parseCid _)
  · exact raisesOnly_error.mpr (.inl rfl)
  · exact handled_of_caught (hlib.parseCidBytes _)
  · exact raisesOnly_error.mpr (.inl rfl)

theorem rootStr_handled (hlib : RaisesCaught lib) (root : PyValue) :
    RaisesOnly Handled (rootStr lib root) := by
  have hdrop (v : PyValue) : RaisesOnly Handled v.dropFirst := by
    unfold PyValue.dropFirst
    split
    all_goals first | exact raisesOnly_ok _ | exact raisesOnly_error.mpr (.inl rfl)
  unfold rootStr
  split
  · split_ifs
    · apply RaisesOnly.map
      exact (hdrop _).bind fun v _ => parseCidValue_handled hlib v
    · exact raisesOnly_ok _
  · exact raisesOnly_ok _

theorem rootStrs_handled (hlib : RaisesCaught lib) (items : List PyValue) :
    RaisesOnly Handled (rootStrs lib items) := by
  induction items with
  | nil => exact raisesOnly_ok _
  | cons root items ih =>
    apply (rootStr_handled hlib root).bind
    intro strs _
    apply ih.bind
    intro more _
    exact raisesOnly_ok _

theorem headerRoots_handled (hlib : RaisesCaught lib) (header : PyValue) :
    RaisesOnly Handled (headerRoots lib header) := by
  have hget (key : String) : RaisesOnly Handled (header.get lib.toPyLib key) := by
    unfold PyValue.get
    split
    · exact raisesOnly_ok _
    · exact handled_of_caught (hlib.getOther _ key)
  have hiter (v : PyValue) : RaisesOnly Handled (v.iter lib.toPyLib) := by
    unfold PyValue.iter
    split
    all_goals first | exact raisesOnly_ok _ | exact handled_of_caught (hlib.iterOther _)
  apply (hget "version").bind
  intro version _
  split_ifs
  · apply (hget "roots").bind
    intro roots _
    apply (hiter _).bind
    intro items _
    exact rootStrs_handled hlib items
  · exact raisesOnly_error.mpr (.inr rfl)

theorem readHeader_handled (hlib : RaisesCaught lib) {n : ℕ} {bytes : Bytes} :
    RaisesOnly Handled (readHeader lib f n bytes) ↔ n ≤ sysMaxsize := by
  refine raisesOnly_bind.trans ⟨fun h => readExactly_handled.mp h.1, fun hn => ⟨readExactly_handled.mpr hn, ?_⟩⟩
  intro read _
  apply (handled_of_caught (hlib.cborLoads read.1)).bind
  intro header _
  apply (headerRoots_handled hlib header).bind
  intro roots _
  exact raisesOnly_ok _

theorem verifyBlock_handled (hlib : RaisesCaught lib) (cidBytes data : Bytes) :
    RaisesOnly Handled (verifyBlock lib cidBytes data) := by
  apply (handled_of_caught (hlib.parseCidBytes cidBytes)).bind
  intro cid _
  apply (handled_of_caught (hlib.multihashDecode _)).bind
  intro mh _
  split
  · exact raisesOnly_error.mpr (.inl rfl)
  · split_ifs
    · exact raisesOnly_ok _
    · exact raisesOnly_error.mpr (.inl rfl)

theorem getCidLen_handled (hlib : RaisesCaught lib) {data : Bytes} :
    RaisesOnly Handled (getCidLen lib data) ↔ ¬DigestOverflows lib data := by
  have hdecode (b : Bytes) : RaisesOnly Handled (lib.varintDecode b) :=
    handled_of_caught (hlib.varintDecode b)
  have hnot : ¬Handled .overflowError := by simp [Handled, isCaught, ExcType.isValueError]
  unfold getCidLen
  split_ifs with h34
  · exact iff_of_true (raisesOnly_ok _) fun h => h.1 h34
  constructor
  · rintro h ⟨-, version, codec, mhCode, mhLen, s₁, s₂, s₃, s₄, h₁, h₂, h₃, h₄, hlt⟩
    have hrest := (raisesOnly_bind.mp h).2 _ h₁
    have hrest := (raisesOnly_bind.mp hrest).2 _ h₂
    have hrest := (raisesOnly_bind.mp hrest).2 _ h₃
    have hrest := (raisesOnly_bind.mp hrest).2 _ h₄
    dsimp only at hrest
    rw [if_pos hlt] at hrest
    exact hnot (raisesOnly_error.mp hrest)
  · intro h
    apply (hdecode data).bind
    intro version h₁
    apply (hdecode _).bind
    intro codec h₂
    apply (hdecode _).bind
    intro mhCode h₃
    apply (hdecode _).bind
    intro mhLen h₄
    dsimp only
    split_ifs with hlt
    · exact absurd ⟨h34, version.1, codec.1, mhCode.1, mhLen.1, version.2, codec.2, mhCode.2, mhLen.2,
        h₁, h₂, h₃, h₄, hlt⟩ h
    · exact raisesOnly_ok _

theorem readBlock_handled (hlib : RaisesCaught lib) (data : Bytes) :
    RaisesOnly Handled (readBlock lib data) ↔ ¬DigestOverflows lib data := by
  refine raisesOnly_bind.trans (Iff.trans ⟨fun h => h.1, fun h => ⟨h, ?_⟩⟩ (getCidLen_handled hlib))
  intro n _
  apply (verifyBlock_handled hlib _ _).bind
  intro _ _
  exact raisesOnly_ok _

theorem not_overflows_of_decode {bytes : Bytes} (h : decode bytes = none) : ¬Overflows lib bytes := by
  have hno {p rest : Bytes} {n : ℕ} (hp : Encodes p n) : decode (p ++ rest) ≠ none := by
    rw [hp.decode]
    simp
  intro ho
  cases ho with
  | length hp _ => exact hno hp h
  | digest hp _ _ _ => exact hno hp h
  | next hp _ _ _ _ => exact hno hp h

theorem overflows_iff {p rest : Bytes} {n : ℕ} (hp : Encodes p n) (hn : n ≤ sysMaxsize) :
    Overflows lib (p ++ rest) ↔ ∃ full after, rest = full ++ after ∧ full.length = n ∧ full ≠ [] ∧
      (DigestOverflows lib full ∨
        ∃ block, readBlock lib full = .ok block ∧ Overflows lib after) := by
  constructor
  · intro h
    generalize hb : p ++ rest = bytes at h
    cases h with
    | length hq hlt =>
      obtain ⟨rfl, -, -⟩ := hp.split hq hb
      omega
    | digest hq _ hne hd =>
      obtain ⟨hlen, -, rfl⟩ := hp.split hq hb
      exact ⟨_, _, rfl, hlen.symm, hne, .inl hd⟩
    | next hq _ hne hread ho =>
      obtain ⟨hlen, -, rfl⟩ := hp.split hq hb
      exact ⟨_, _, rfl, hlen.symm, hne, .inr ⟨_, hread, ho⟩⟩
  · rintro ⟨full, after, rfl, rfl, hne, hd | ⟨block, hread, ho⟩⟩
    · exact .digest hp hn hne hd
    · exact .next hp hn hne hread ho

theorem not_overflows_of_short {p rest : Bytes} {n : ℕ} {e : PyError} (hp : Encodes p n) (hn : n ≤ sysMaxsize)
    (hread : readExactly f n rest = .error e) : ¬Overflows lib (p ++ rest) := by
  rw [overflows_iff hp hn]
  rintro ⟨full, after, hrest, hlen, -⟩
  rw [readExactly_ok.mpr ⟨hn, hlen, hrest⟩] at hread
  contradiction

theorem overflows_of_read {p rest : Bytes} {n : ℕ} {read : Bytes × Bytes} (hp : Encodes p n)
    (hread : readExactly f n rest = .ok read) : Overflows lib (p ++ rest) ↔ read.1 ≠ [] ∧
      (DigestOverflows lib read.1 ∨ ∃ block, readBlock lib read.1 = .ok block ∧ Overflows lib read.2) := by
  obtain ⟨hn, hlen, hrest⟩ := readExactly_ok.mp hread
  rw [overflows_iff hp hn]
  constructor
  · rintro ⟨full, after, hsplit, hfull, h⟩
    obtain ⟨rfl, rfl⟩ := List.append_inj (hsplit.symm.trans hrest) (hfull.trans hlen.symm)
    exact h
  · intro h
    exact ⟨read.1, read.2, hrest, hlen, h⟩

theorem readBlocks_handled (hlib : RaisesCaught lib) {k : ℕ} {rest : Bytes} (hk : rest.length ≤ k)
    (puts : List (Bytes × Bytes)) :
    RaisesOnly Handled (readBlocks lib f .none k rest puts).2 ↔ ¬Overflows lib rest := by
  induction k generalizing rest puts with
  | zero =>
    obtain rfl : rest = [] := List.length_eq_zero_iff.mp (by omega)
    exact iff_of_true (raisesOnly_ok _) (not_overflows_of_decode rfl)
  | succ k ih =>
    rw [readBlocks, readVarint_eq]
    cases hd : decode rest with
    | none =>
      refine iff_of_true ?_ (not_overflows_of_decode hd)
      dsimp only
      split_ifs
      · exact raisesOnly_ok _
      · refine raisesOnly_error.mpr ?_
        unfold eofError
        split_ifs <;> exact .inl rfl
    | some r =>
      obtain ⟨p, rfl, hp⟩ := decode_encodes hd
      have hpos : 0 < p.length := List.length_pos_of_ne_nil hp.ne_nil
      rw [List.length_append] at hk
      dsimp only
      have hlength : RaisesOnly Handled (readExactly f r.1 r.2) ↔ r.1 ≤ sysMaxsize := readExactly_handled
      cases hread : readExactly f r.1 r.2 with
      | error e =>
        rw [hread] at hlength
        refine (raisesOnly_error.trans raisesOnly_error.symm).trans (hlength.trans ?_)
        constructor
        · exact fun hn => not_overflows_of_short hp hn hread
        · intro h
          by_contra hn
          exact h (.length hp (by omega))
      | ok read =>
        obtain ⟨-, -, hrest⟩ := readExactly_ok.mp hread
        rw [overflows_of_read hp hread]
        dsimp only
        by_cases hempty : read.1 = []
        · rw [if_pos hempty]
          exact iff_of_true (raisesOnly_ok _) fun h => h.1 hempty
        rw [if_neg hempty]
        have hblock := readBlock_handled hlib read.1
        cases hb : readBlock lib read.1 with
        | error e =>
          rw [hb] at hblock
          refine (raisesOnly_error.trans raisesOnly_error.symm).trans (hblock.trans ?_)
          simp [hempty]
        | ok block =>
          have hnot : ¬DigestOverflows lib read.1 := hblock.mp (hb ▸ raisesOnly_ok block)
          have hshort : read.2.length ≤ k := by
            have := congrArg List.length hrest
            rw [List.length_append] at this
            omega
          refine (ih hshort _).trans ?_
          simp [hempty, hnot]

theorem checkRoots_handled (hlib : RaisesCaught lib) (strict : Bool) (store : Store) (i : ℕ)
    (roots : List String) :
    RaisesOnly Handled (checkRoots lib .none strict store i roots) := by
  have hroot (i : ℕ) (root : String) : RaisesOnly Handled (checkRoot lib .none strict store i root) := by
    apply RaisesOnly.bind
    · apply (handled_of_caught (hlib.parseCid root)).bind
      intro cid _
      exact raisesOnly_ok _
    · intro present _
      split_ifs
      · split
        · exact raisesOnly_ok _
        · exact raisesOnly_error.mpr (.inr rfl)
      · exact raisesOnly_ok _
      · exact raisesOnly_error.mpr (.inr rfl)
  induction roots generalizing i with
  | nil => exact raisesOnly_ok _
  | cons root roots ih =>
    apply (hroot i root).bind
    intro _ _
    exact ih (i + 1)

theorem parseFailure_iff {α : Type*} {e : PyError} :
    RaisesOnly (· = .carParseError) (.error (parseFailure e) : Except PyError α) ↔ Handled e.type :=
  raisesOnly_error.trans (parseFailure_type e)

theorem readHeader_of {n : ℕ} {headerBytes rest : Bytes} {header : PyValue} {roots : List String}
    (hn : n ≤ sysMaxsize) (hlen : headerBytes.length = n) (hloads : lib.cborLoads headerBytes = .ok header)
    (hroots : headerRoots lib header = .ok roots) :
    readHeader lib f n (headerBytes ++ rest) = .ok (roots, rest) := by
  apply bind_ok.mpr
  refine ⟨(headerBytes, rest), readExactly_ok.mpr ⟨hn, hlen, rfl⟩, bind_ok.mpr ⟨header, hloads, ?_⟩⟩
  exact bind_ok.mpr ⟨roots, hroots, rfl⟩

theorem contained_of_decode {bytes : Bytes} {n : ℕ} {rest : Bytes} (hd : decode bytes = some (n, rest)) :
    Contained lib bytes ↔ n ≤ sysMaxsize ∧ ∀ headerBytes header roots after,
      rest = headerBytes ++ after → headerBytes.length = n → lib.cborLoads headerBytes = .ok header →
      headerRoots lib header = .ok roots → ¬Overflows lib after := by
  obtain ⟨p, rfl, hp⟩ := decode_encodes hd
  constructor
  · intro h
    refine ⟨h.header p n rest rfl hp, ?_⟩
    rintro headerBytes header roots after rfl rfl hloads hroots
    exact h.sections p headerBytes header roots after rfl hp hloads hroots
  · rintro ⟨hn, hsections⟩
    refine ⟨fun _ => ?_, ?_, ?_⟩
    · by_contra hall
      push Not at hall
      rw [decode_eq_none.mpr hall] at hd
      contradiction
    · intro q m after hb hq
      obtain ⟨rfl, -, -⟩ := hp.split hq hb
      exact hn
    · intro q headerBytes header roots after hb hq hloads hroots
      obtain ⟨hlen, -, hrest⟩ := hp.split hq hb
      exact hsections headerBytes header roots after hrest hlen.symm hloads hroots

theorem contained_of_none {bytes : Bytes} (hd : decode bytes = none) :
    Contained lib bytes ↔ bytes = [] := by
  constructor
  · intro h
    by_contra hne
    obtain ⟨b, hb, hlt⟩ := h.ends hne
    have := decode_eq_none.mp hd b hb
    omega
  · rintro rfl
    have hno {p rest : Bytes} {n : ℕ} (hp : Encodes p n) : [] ≠ p ++ rest := by
      simp [hp.ne_nil]
    exact ⟨fun h => absurd rfl h, fun p n rest hb hp => absurd hb (hno hp),
      fun p headerBytes _ _ rest hb hp => absurd hb (hno hp)⟩

theorem decodeTable_raises {α : Type} {type : ExcType} {types : ExcType → Prop} (h : types type)
    (rows : List (Bytes × α)) (data : Bytes) : RaisesOnly types (decodeTable type rows data) := by
  unfold decodeTable
  split
  · exact raisesOnly_ok _
  · exact raisesOnly_error.mpr h

theorem sampleLib_raisesCaught : RaisesCaught sampleLib where
  varintDecode data := by
    simp only [sampleLib]
    split
    · exact raisesOnly_ok _
    · exact raisesOnly_error.mpr rfl
  cborLoads data := by
    apply decodeTable_raises
    rfl
  parseCid s := by
    simp only [sampleLib, DagLib.ofTable, CidLib.ofTable]
    split
    · exact raisesOnly_ok _
    · exact raisesOnly_error.mpr rfl
  parseCidBytes b := by
    simp only [sampleLib, DagLib.ofTable, CidLib.ofTable]
    split
    · exact raisesOnly_ok _
    · exact raisesOnly_error.mpr rfl
  multihashDecode b := by
    simp only [sampleLib]
    split
    · split_ifs
      · exact raisesOnly_ok _
      · exact raisesOnly_error.mpr rfl
    · exact raisesOnly_error.mpr rfl
  getOther _ _ := raisesOnly_error.mpr rfl
  iterOther _ := raisesOnly_error.mpr rfl

end IpfsLite.Car
