import IpfsLite.FileFetch

/-! The size limit of a download: the first chunk is passed on before any check. -/

namespace IpfsLite.Files

structure Limited (maxSize : ℕ) (chunks : List Bytes) (stream : Stream) (file : Except PyError Bytes) :
    Prop where
  bounded : stream.bytes.length ≤ maxSize ∧ ∀ b, file = .ok b → b.length ≤ maxSize
  whole : chunks.flatten.length ≤ maxSize →
    stream.bytes = chunks.flatten ∧ stream.ends = none ∧ file = .ok chunks.flatten
  cut : maxSize < chunks.flatten.length → stream.bytes <+: chunks.flatten ∧
    stream.ends = some (tooLarge maxSize) ∧ file = .error (tooLarge maxSize)

theorem effectiveMaxSize_some {maxSize : ℕ} (h : 0 < maxSize) (maxDownloadSize : ℤ) :
    effectiveMaxSize (some maxSize) maxDownloadSize = maxSize := by
  have hne : ((some (maxSize : ℤ)).getD 0) ≠ 0 := by
    rw [Option.getD_some]
    omega
  rw [effectiveMaxSize, if_neg hne, Option.getD_some]

theorem yieldWithin_limited (maxSize : ℕ) (chunks : List Bytes) {size : ℕ} (h : size ≤ maxSize) :
    size + (yieldWithin maxSize size chunks none).bytes.length ≤ maxSize ∧
      (yieldWithin maxSize size chunks none).bytes <+: chunks.flatten ∧
      if size + chunks.flatten.length ≤ maxSize then
        (yieldWithin maxSize size chunks none).bytes = chunks.flatten ∧
          (yieldWithin maxSize size chunks none).ends = none
      else (yieldWithin maxSize size chunks none).ends = some (tooLarge maxSize) := by
  induction chunks generalizing size with
  | nil =>
    rw [if_pos (by simpa using h)]
    exact ⟨by simpa [yieldWithin, Stream.bytes] using h, List.prefix_rfl, rfl, rfl⟩
  | cons chunk chunks ih =>
    by_cases hfits : size + chunk.length ≤ maxSize
    · obtain ⟨hbound, hprefix, hends⟩ := ih hfits
      have hgo : ¬(maxSize : ℤ) < (size + chunk.length : ℕ) := by omega
      have hstream : yieldWithin maxSize size (chunk :: chunks) none =
          ⟨chunk :: (yieldWithin maxSize (size + chunk.length) chunks none).chunks,
            (yieldWithin maxSize (size + chunk.length) chunks none).ends⟩ := by
        rw [yieldWithin, if_neg hgo]
      have hbytes : (yieldWithin maxSize size (chunk :: chunks) none).bytes =
          chunk ++ (yieldWithin maxSize (size + chunk.length) chunks none).bytes := by
        rw [hstream, Stream.bytes, List.flatten_cons, ← Stream.bytes]
      rw [hbytes, List.flatten_cons, List.length_append, List.length_append, ← Nat.add_assoc, ← Nat.add_assoc]
      refine ⟨hbound, (List.prefix_append_right_inj chunk).mpr hprefix, ?_⟩
      rw [hstream]
      split_ifs at hends ⊢
      · exact ⟨by rw [hends.1], hends.2⟩
      · exact hends
    · have hstop : (maxSize : ℤ) < (size + chunk.length : ℕ) := by omega
      have hstream : yieldWithin maxSize size (chunk :: chunks) none = .raises (tooLarge maxSize) := by
        rw [yieldWithin, if_pos hstop]
      have hlong : ¬size + (chunk :: chunks).flatten.length ≤ maxSize := by
        rw [List.flatten_cons, List.length_append]
        omega
      rw [hstream, if_neg hlong]
      exact ⟨by simpa [Stream.raises, Stream.bytes] using h, List.nil_prefix, rfl⟩

theorem getFileStream_cons (first : Bytes) (chunks : List Bytes) {maxSize : ℕ} (h : 0 < maxSize)
    (maxDownloadSize : ℤ) :
    (getFileStream (.ok ⟨first :: chunks, none⟩) (some maxSize) maxDownloadSize).bytes =
        first ++ (yieldWithin maxSize first.length chunks none).bytes ∧
      (getFileStream (.ok ⟨first :: chunks, none⟩) (some maxSize) maxDownloadSize).ends =
        (yieldWithin maxSize first.length chunks none).ends := by
  simp only [getFileStream, effectiveMaxSize_some h]
  split_ifs with hlen
  · exact ⟨by rw [Stream.bytes, List.flatten_cons, ← Stream.bytes], rfl⟩
  · obtain rfl := List.eq_nil_of_length_eq_zero (Nat.eq_zero_of_not_pos hlen)
    exact ⟨rfl, rfl⟩

theorem join_of_none {s : Stream} (h : s.ends = none) : s.join = .ok s.bytes := by
  rw [Stream.join, h]

theorem join_of_some {s : Stream} {e : PyError} (h : s.ends = some e) : s.join = .error e := by
  rw [Stream.join, h]

theorem join_bytes {s : Stream} {b : Bytes} (h : s.join = .ok b) : b = s.bytes := by
  cases hends : s.ends with
  | none => exact (Except.ok.inj ((join_of_none hends).symm.trans h)).symm
  | some e =>
    rw [join_of_some hends] at h
    contradiction

theorem download_limited_iff (chunks : List Bytes) (maxSize : ℕ) (h : 0 < maxSize) (maxDownloadSize : ℤ) :
    Limited maxSize chunks (getFileStream (.ok ⟨chunks, none⟩) (some maxSize) maxDownloadSize)
        (getFileBytes (.ok ⟨chunks, none⟩) (some maxSize) maxDownloadSize) ↔
      ∀ first ∈ chunks.head?, first.length ≤ maxSize := by
  rw [getFileBytes]
  cases chunks with
  | nil =>
    have hempty : Limited maxSize [] .empty (.ok []) :=
      ⟨⟨Nat.zero_le _, fun b hb => by simp [← Except.ok.inj hb]⟩, fun _ => ⟨rfl, rfl, rfl⟩, fun hlong => by
        simp at hlong⟩
    exact iff_of_true hempty (by simp)
  | cons first chunks =>
    obtain ⟨hbytes, hends⟩ := getFileStream_cons first chunks h maxDownloadSize
    generalize getFileStream (.ok ⟨first :: chunks, none⟩) (some maxSize) maxDownloadSize = stream at *
    simp only [List.head?_cons, Option.mem_some_iff, forall_eq']
    constructor
    · intro hlimited
      have hbound := hlimited.bounded.1
      rw [hbytes, List.length_append] at hbound
      omega
    · intro hfirst
      obtain ⟨hbound, hprefix, hrest⟩ := yieldWithin_limited maxSize chunks hfirst
      rw [← List.length_append, ← hbytes] at hbound
      refine ⟨⟨hbound, fun b hb => ?_⟩, fun hfits => ?_, fun hlong => ?_⟩
      · rw [join_bytes hb]
        exact hbound
      · rw [List.flatten_cons, List.length_append] at hfits
        rw [if_pos hfits] at hrest
        rw [hrest.1, ← List.flatten_cons] at hbytes
        rw [hrest.2] at hends
        rw [join_of_none hends, hends, hbytes]
        exact ⟨rfl, rfl, rfl⟩
      · rw [List.flatten_cons, List.length_append] at hlong
        rw [if_neg (Nat.not_le.mpr hlong)] at hrest
        rw [hrest] at hends
        rw [join_of_some hends, hends, hbytes, List.flatten_cons]
        exact ⟨(List.prefix_append_right_inj first).mpr hprefix, rfl, rfl⟩

theorem download_limited_one : Limited 1 [[97], [98]]
    (getFileStream (.ok ⟨[[97], [98]], none⟩) (some 1) 104857600)
    (getFileBytes (.ok ⟨[[97], [98]], none⟩) (some 1) 104857600) :=
  (download_limited_iff [[97], [98]] 1 (by decide) 104857600).mpr (by decide)

theorem download_limited_fails : ¬∀ (chunks : List Bytes) (maxSize : ℕ), 0 < maxSize →
    Limited maxSize chunks (getFileStream (.ok ⟨chunks, none⟩) (some maxSize) 104857600)
      (getFileBytes (.ok ⟨chunks, none⟩) (some maxSize) 104857600) := by
  intro hall
  have hbound := (hall [[97, 98]] 1 (by decide)).bounded.1
  revert hbound
  decide

end IpfsLite.Files
