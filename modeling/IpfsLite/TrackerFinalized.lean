import IpfsLite.Lib.Firsts
import IpfsLite.Lib.Runs
import IpfsLite.Tracker

namespace IpfsLite.Tracker.Finalized

open Runs

structure Filter where
  keys : Dict String ℚ
  marks : List (String × ℚ)

def Filter.init : Filter := ⟨.empty, []⟩

def mark (f : Filter) (m : String × ℚ) : Option Filter :=
  if ∀ last ∈ f.marks.head?, last.2 ≤ m.2 then some ⟨markFinalized f.keys m.1 m.2, m :: f.marks⟩ else none

def recentMarks (marks : List (String × ℚ)) (now : ℚ) : List (String × ℚ) :=
  ((firsts Prod.fst marks).filter fun m => now - m.2 ≤ finalizedTtlSeconds).take maxFinalizedKeys

def lastMark (marks : List (String × ℚ)) : ℚ := (marks.head?.map Prod.snd).getD 0

def Exact (f : Filter) : Prop :=
  ∀ k, k ∈ f.keys.keys ↔ k ∈ (recentMarks f.marks (lastMark f.marks)).map Prod.fst

/-- The number of marks after the latest one of the key. -/
def marksSince (marks : List (String × ℚ)) (k : String) : ℕ := (marks.map Prod.fst).idxOf k

/-- With the marked key set to its new time: the keys that have expired stand before all others in the dict,
and if more than 2000 others are there, the front one of these was marked longest ago. -/
structure InOrder (f : Filter) (m : String × ℚ) : Prop where
  expired : (f.keys.set m.1 m.2).entries.Pairwise fun a b =>
    finalizedTtlSeconds < m.2 - b.2 → finalizedTtlSeconds < m.2 - a.2
  oldest : ∀ front rest, (f.keys.set m.1 m.2).entries.filter (fun e => m.2 - e.2 ≤ finalizedTtlSeconds) =
    front :: rest → maxFinalizedKeys ≤ rest.length →
      ∀ e ∈ rest, marksSince (m :: f.marks) e.1 < marksSince (m :: f.marks) front.1

def unexpired (f : Filter) (m : String × ℚ) : List (String × ℚ) :=
  (f.keys.set m.1 m.2).entries.dropWhile fun e => finalizedTtlSeconds < m.2 - e.2

structure DropsRight (f : Filter) (m : String × ℚ) : Prop where
  expired : ∀ e ∈ unexpired f m, m.2 - e.2 ≤ finalizedTtlSeconds
  oldest : maxFinalizedKeys < (unexpired f m).length → ∀ e ∈ (unexpired f m).head?,
    e.1 ∉ (recentMarks (m :: f.marks) m.2).map Prod.fst

structure Timed (f : Filter) : Prop where
  latest : ∀ k v, f.keys.get? k = some v → f.marks.lookup k = some v
  ordered : f.marks.Pairwise fun a b => b.2 ≤ a.2

variable {f f' : Filter} {m : String × ℚ} {k : String}

theorem markFinalized_entries (f : Filter) (m : String × ℚ) :
    (markFinalized f.keys m.1 m.2).entries =
      if maxFinalizedKeys < (unexpired f m).length then (unexpired f m).tail else unexpired f m := by
  have hkept := Dict.foldl_erase_prefix (d := f.keys.set m.1 m.2)
    (List.takeWhile_append_dropWhile (p := fun e => finalizedTtlSeconds < m.2 - e.2)).symm
  change _ = unexpired f m at hkept
  unfold markFinalized
  dsimp only
  generalize ((f.keys.set m.1 m.2).entries.takeWhile fun e => decide (finalizedTtlSeconds < m.2 - e.2)).foldl
    (fun d e => d.erase e.1) (f.keys.set m.1 m.2) = kept at hkept ⊢
  rw [← hkept]
  split_ifs
  · split
    · next hnil => rw [hnil, List.tail_nil]
    · next e rest hcons =>
      rw [hcons, List.tail_cons]
      have hsplit : _ = [e] ++ rest := hcons
      exact Dict.foldl_erase_prefix hsplit
  · rfl

theorem mem_firsts_iff {marks : List (String × ℚ)} {e : String × ℚ} :
    e ∈ firsts Prod.fst marks ↔ marks.lookup e.1 = some e.2 := by
  induction marks with
  | nil => simp [firsts]
  | cons a marks ih =>
    rw [firsts, List.mem_cons, List.mem_filter, ih, Dict.lookup_pair]
    by_cases he : e.1 = a.1
    · simp [he, Prod.ext_iff, eq_comm]
    · simp [he, Prod.ext_iff]

theorem set_latest (hf : Timed f) (m : String × ℚ) (k : String) (v : ℚ)
    (h : (f.keys.set m.1 m.2).get? k = some v) : (m :: f.marks).lookup k = some v := by
  rw [Dict.get?_set] at h
  rw [Dict.lookup_pair]
  split_ifs at h ⊢
  · exact h
  · exact hf.latest k v h

theorem unexpired_suffix (f : Filter) (m : String × ℚ) :
    unexpired f m <:+ (f.keys.set m.1 m.2).entries := List.dropWhile_suffix _

theorem markFinalized_sublist (f : Filter) (m : String × ℚ) :
    (markFinalized f.keys m.1 m.2).entries.Sublist (f.keys.set m.1 m.2).entries := by
  rw [markFinalized_entries]
  split_ifs
  · exact (List.tail_sublist _).trans (unexpired_suffix f m).sublist
  · exact (unexpired_suffix f m).sublist

theorem mark_timed (hf : Timed f) (h : mark f m = some f') : Timed f' := by
  rw [mark] at h
  split_ifs at h with hlast
  obtain rfl := Option.some.inj h
  constructor
  · intro k v hk
    apply set_latest hf m k v
    rw [Dict.get?_eq_some] at hk ⊢
    exact (markFinalized_sublist f m).subset hk
  · refine List.pairwise_cons.mpr ⟨fun a ha => ?_, hf.ordered⟩
    cases hmarks : f.marks with
    | nil => simp [hmarks] at ha
    | cons last marks =>
      have hle := hlast last (by simp [hmarks])
      have hord := hf.ordered
      rw [hmarks] at ha hord
      rcases List.mem_cons.mp ha with rfl | ha
      · exact hle
      · exact ((List.pairwise_cons.mp hord).1 a ha).trans hle

theorem recentMarks_cons (m : String × ℚ) (marks : List (String × ℚ)) :
    recentMarks (m :: marks) m.2 =
      m :: (((firsts Prod.fst marks).filter fun a => m.2 - a.2 ≤ finalizedTtlSeconds).filter
        fun a => a.1 ≠ m.1).take (maxFinalizedKeys - 1) := by
  have hself : m.2 - m.2 ≤ finalizedTtlSeconds := by
    rw [sub_self]
    decide
  rw [recentMarks, firsts, List.filter_cons_of_pos (by simpa using hself), List.filter_filter, List.filter_filter]
  simp only [Bool.and_comm]
  rfl

theorem recent_before (hf : Timed f) (hlast : ∀ last ∈ f.marks.head?, last.2 ≤ m.2) {e : String × ℚ}
    (h : e ∈ recentMarks (m :: f.marks) m.2) (hne : e ≠ m) :
    e.1 ≠ m.1 ∧ e ∈ recentMarks f.marks (lastMark f.marks) ∧ m.2 - e.2 ≤ finalizedTtlSeconds := by
  have hordered := firsts_pairwise Prod.fst hf.ordered
  have haged : ∀ a ∈ firsts Prod.fst f.marks, m.2 - a.2 ≤ finalizedTtlSeconds →
      lastMark f.marks - a.2 ≤ finalizedTtlSeconds := by
    intro a ha hunexp
    cases hmarks : f.marks with
    | nil => simp [hmarks, firsts] at ha
    | cons last marks =>
      have hle := hlast last (by simp [hmarks])
      change last.2 - a.2 ≤ _
      linarith
  have hfilter : ((firsts Prod.fst f.marks).filter fun a => m.2 - a.2 ≤ finalizedTtlSeconds) =
      ((firsts Prod.fst f.marks).filter fun a => lastMark f.marks - a.2 ≤ finalizedTtlSeconds).filter
        fun a => m.2 - a.2 ≤ finalizedTtlSeconds := by
    rw [List.filter_filter]
    refine List.filter_congr fun a ha => ?_
    by_cases hunexp : m.2 - a.2 ≤ finalizedTtlSeconds
    · simp [hunexp, haged a ha hunexp]
    · simp [hunexp]
  rw [recentMarks_cons, List.mem_cons] at h
  have hmem := h.resolve_left hne
  have hkey : e.1 ≠ m.1 := by simpa using (List.mem_filter.mp (List.mem_of_mem_take hmem)).2
  have hnodup : (((firsts Prod.fst f.marks).filter fun a => m.2 - a.2 ≤ finalizedTtlSeconds).map
      Prod.fst).Nodup := (nodup_map_firsts Prod.fst f.marks).sublist (List.filter_sublist.map _)
  have htake := mem_take_of_filter_ne hnodup hmem
  rw [hfilter, take_filter] at htake
  · obtain ⟨hrecent, hunexp⟩ := List.mem_filter.mp htake
    exact ⟨hkey, hrecent, by simpa using hunexp⟩
  · refine (hordered.sublist List.filter_sublist).imp fun hab hb => ?_
    simp only [decide_eq_true_eq] at hb ⊢
    linarith

theorem recent_set (hf : Timed f) (he : Exact f) (hlast : ∀ last ∈ f.marks.head?, last.2 ≤ m.2)
    {e : String × ℚ} (h : e ∈ recentMarks (m :: f.marks) m.2) :
    (f.keys.set m.1 m.2).get? e.1 = some e.2 ∧ m.2 - e.2 ≤ finalizedTtlSeconds := by
  rw [Dict.get?_set]
  by_cases hem : e = m
  · rw [hem, if_pos rfl, sub_self]
    exact ⟨rfl, by decide⟩
  · obtain ⟨hkey, hrecent, hunexp⟩ := recent_before hf hlast h hem
    rw [if_neg hkey]
    refine ⟨?_, hunexp⟩
    obtain ⟨v, hv⟩ := Dict.mem_keys.mp ((he e.1).mpr (List.mem_map_of_mem hrecent))
    have hlatest := mem_firsts_iff.mp (List.mem_of_mem_filter (List.mem_of_mem_take hrecent))
    rw [hv, ← hlatest, hf.latest e.1 v hv]

theorem Exact.length_le (he : Exact f) : f.keys.entries.length ≤ maxFinalizedKeys := by
  have hsub : f.keys.keys ⊆ (recentMarks f.marks (lastMark f.marks)).map Prod.fst := fun k hk => (he k).mp hk
  have hlen : f.keys.keys.length ≤ _ := (List.subperm_of_subset f.keys.nodup hsub).length_le
  have htake : (recentMarks f.marks (lastMark f.marks)).length ≤ maxFinalizedKeys := List.length_take_le _ _
  have hkeys : f.keys.keys.length = f.keys.entries.length := List.length_map _
  rw [List.length_map] at hlen
  omega

theorem length_set_le (d : Dict String ℚ) (k : String) (v : ℚ) :
    (d.set k v).entries.length ≤ d.entries.length + 1 := by
  by_cases hk : k ∈ d.keys
  · rw [Dict.length_set_of_mem hk]
    exact Nat.le_succ _
  · rw [Dict.entries_set_of_notMem hk, List.length_append]
    rfl

theorem unexpired_nodup (f : Filter) (m : String × ℚ) : ((unexpired f m).map Prod.fst).Nodup :=
  (f.keys.set m.1 m.2).nodup.sublist ((unexpired_suffix f m).sublist.map _)

theorem mem_iff_of_length_le {ks js : List String} (hk : ks.Nodup) (hsub : ks ⊆ js)
    (hlen : js.length ≤ ks.length) (k : String) : k ∈ js ↔ k ∈ ks :=
  ((List.subperm_of_subset hk hsub).perm_of_length_le hlen).mem_iff.symm

theorem recent_unexpired (hf : Timed f) (he : Exact f) (hlast : ∀ last ∈ f.marks.head?, last.2 ≤ m.2) :
    (recentMarks (m :: f.marks) m.2).map Prod.fst ⊆ (unexpired f m).map Prod.fst := by
  intro k hk
  obtain ⟨e, hmem, rfl⟩ := List.mem_map.mp hk
  obtain ⟨hget, hunexp⟩ := recent_set hf he hlast hmem
  have hentry := Dict.get?_eq_some.mp hget
  have hsplit : (f.keys.set m.1 m.2).entries.takeWhile (fun e => finalizedTtlSeconds < m.2 - e.2) ++
      unexpired f m = (f.keys.set m.1 m.2).entries := List.takeWhile_append_dropWhile
  rw [← hsplit, List.mem_append] at hentry
  rcases hentry with hexp | hleft
  · have hlt := List.all_eq_true.mp List.all_takeWhile _ hexp
    exact absurd hunexp (not_le.mpr (of_decide_eq_true hlt))
  · exact List.mem_map_of_mem hleft

def liveMarks (f : Filter) (m : String × ℚ) : List (String × ℚ) :=
  (firsts Prod.fst (m :: f.marks)).filter fun a => m.2 - a.2 ≤ finalizedTtlSeconds

theorem recentMarks_eq (f : Filter) (m : String × ℚ) :
    recentMarks (m :: f.marks) m.2 = (liveMarks f m).take maxFinalizedKeys := rfl

theorem unexpired_live (hf : Timed f) (hexpired : ∀ e ∈ unexpired f m, m.2 - e.2 ≤ finalizedTtlSeconds) :
    unexpired f m ⊆ liveMarks f m := by
  intro e hmem
  refine List.mem_filter.mpr ⟨mem_firsts_iff.mpr ?_, by simpa using hexpired e hmem⟩
  exact set_latest hf m e.1 e.2 (Dict.get?_eq_some.mpr ((unexpired_suffix f m).subset hmem))

theorem length_unexpired_le (he : Exact f) (m : String × ℚ) :
    (unexpired f m).length ≤ maxFinalizedKeys + 1 := by
  have hset := length_set_le f.keys m.1 m.2
  have hle := he.length_le
  have hsuffix := (unexpired_suffix f m).length_le
  omega

theorem recent_nodup (f : Filter) (m : String × ℚ) :
    ((recentMarks (m :: f.marks) m.2).map Prod.fst).Nodup :=
  (nodup_map_firsts Prod.fst (m :: f.marks)).sublist (((List.take_sublist _ _).trans List.filter_sublist).map _)

theorem exact_dropsRight (hf : Timed f) (he : Exact f) (hlast : ∀ last ∈ f.marks.head?, last.2 ≤ m.2)
    (hx : Exact ⟨markFinalized f.keys m.1 m.2, m :: f.marks⟩) : DropsRight f m := by
  have hkeys (k : String) : k ∈ (markFinalized f.keys m.1 m.2).entries.map Prod.fst ↔
      k ∈ (recentMarks (m :: f.marks) m.2).map Prod.fst := hx k
  have hrecent : ∀ e ∈ unexpired f m, e.1 ∈ (recentMarks (m :: f.marks) m.2).map Prod.fst →
      m.2 - e.2 ≤ finalizedTtlSeconds := by
    intro e hmem hkey
    obtain ⟨e', he', hkey⟩ := List.mem_map.mp hkey
    obtain ⟨hget, hunexp⟩ := recent_set hf he hlast he'
    have hget' : (f.keys.set m.1 m.2).get? e.1 = some e.2 :=
      Dict.get?_eq_some.mpr ((unexpired_suffix f m).subset hmem)
    rw [hkey, hget'] at hget
    rwa [Option.some.inj hget]
  rw [markFinalized_entries] at hkeys
  split_ifs at hkeys with hcap
  · cases hleft : unexpired f m with
    | nil =>
      rw [hleft] at hcap
      contradiction
    | cons front rest =>
      have hn := unexpired_nodup f m
      simp only [hleft, List.tail_cons] at hkeys hn hrecent
      have hfront : m.2 - front.2 ≤ finalizedTtlSeconds := by
        have hnot := List.head?_dropWhile_not (fun e : String × ℚ => decide (finalizedTtlSeconds < m.2 - e.2))
          (f.keys.set m.1 m.2).entries
        rw [← unexpired, hleft, List.head?_cons] at hnot
        simpa using hnot
      constructor
      · rw [hleft, List.forall_mem_cons]
        refine ⟨hfront, fun e hmem => hrecent e (List.mem_cons_of_mem _ hmem) ?_⟩
        exact (hkeys e.1).mp (List.mem_map_of_mem hmem)
      · intro _ e hhead hkey
        rw [hleft, List.head?_cons] at hhead
        obtain rfl := Option.some.inj hhead
        rw [List.map_cons, List.nodup_cons] at hn
        exact hn.1 ((hkeys _).mpr hkey)
  · constructor
    · exact fun e hmem => hrecent e hmem ((hkeys e.1).mp (List.mem_map_of_mem hmem))
    · exact fun h => absurd h hcap

theorem dropsRight_exact (hf : Timed f) (he : Exact f) (hlast : ∀ last ∈ f.marks.head?, last.2 ≤ m.2)
    (ho : DropsRight f m) : Exact ⟨markFinalized f.keys m.1 m.2, m :: f.marks⟩ := by
  let recentKeys := (recentMarks (m :: f.marks) m.2).map Prod.fst
  change ∀ k, k ∈ (markFinalized f.keys m.1 m.2).entries.map Prod.fst ↔ k ∈ recentKeys
  have hn := unexpired_nodup f m
  have hrn : recentKeys.Nodup := recent_nodup f m
  have hsub : recentKeys ⊆ (unexpired f m).map Prod.fst := recent_unexpired hf he hlast
  have hall : (unexpired f m).map Prod.fst ⊆ (liveMarks f m).map Prod.fst :=
    List.map_subset _ (unexpired_live hf ho.expired)
  have hlenall := (List.subperm_of_subset hn hall).length_le
  have hlenrecent : recentKeys.length = min maxFinalizedKeys (liveMarks f m).length := by
    rw [List.length_map, recentMarks_eq, List.length_take]
  have hlenleft := length_unexpired_le he m
  simp only [List.length_map] at hlenall
  rw [markFinalized_entries]
  split_ifs with hcap
  · cases hleft : unexpired f m with
    | nil =>
      rw [hleft] at hcap
      contradiction
    | cons front rest =>
      have hfront := ho.oldest hcap front (by rw [hleft, List.head?_cons]; rfl)
      rw [hleft] at hn hsub hlenleft hcap hlenall
      rw [List.length_cons] at hlenleft hcap hlenall
      rw [List.tail_cons]
      apply mem_iff_of_length_le hrn
      · intro k hk
        rcases List.mem_cons.mp (hsub hk) with rfl | hk'
        · exact absurd hk hfront
        · exact hk'
      · rw [List.length_map]
        omega
  · by_cases hmany : maxFinalizedKeys < (liveMarks f m).length
    · apply mem_iff_of_length_le hrn hsub
      rw [List.length_map]
      omega
    · have htake : recentMarks (m :: f.marks) m.2 = liveMarks f m := List.take_of_length_le (Nat.le_of_not_lt hmany)
      intro k
      refine ⟨fun hk => ?_, fun hk => hsub hk⟩
      change k ∈ (recentMarks (m :: f.marks) m.2).map Prod.fst
      rw [htake]
      exact hall hk

theorem notRecent_iff (hf : Timed f) (he : Exact f) (hlast : ∀ last ∈ f.marks.head?, last.2 ≤ m.2)
    (hexpired : ∀ e ∈ unexpired f m, m.2 - e.2 ≤ finalizedTtlSeconds) {front : String × ℚ}
    {rest : List (String × ℚ)} (hleft : unexpired f m = front :: rest) (hcap : maxFinalizedKeys ≤ rest.length) :
    front.1 ∉ (recentMarks (m :: f.marks) m.2).map Prod.fst ↔
      ∀ e ∈ rest, marksSince (m :: f.marks) e.1 < marksSince (m :: f.marks) front.1 := by
  have hlive := unexpired_live hf hexpired
  have hsub := recent_unexpired hf he hlast
  have hlenleft := length_unexpired_le he m
  have hn := unexpired_nodup f m
  rw [hleft] at hlive hsub hlenleft hn
  rw [List.length_cons] at hlenleft
  have hsplit := List.take_append_drop maxFinalizedKeys (liveMarks f m)
  have hsince := (firsts_idxOf Prod.fst (m :: f.marks)).sublist
    (List.filter_sublist (p := fun a : String × ℚ => decide (m.2 - a.2 ≤ finalizedTtlSeconds)))
  have hsooner : ∀ a ∈ recentMarks (m :: f.marks) m.2, ∀ b ∈ liveMarks f m,
      b.1 ∉ (recentMarks (m :: f.marks) m.2).map Prod.fst →
        marksSince (m :: f.marks) a.1 < marksSince (m :: f.marks) b.1 := by
    intro a ha b hb hnot
    change (liveMarks f m).Pairwise _ at hsince
    rw [← hsplit, List.pairwise_append] at hsince
    rw [← hsplit, List.mem_append] at hb
    exact hsince.2.2 a ha b (hb.resolve_left fun hr => hnot (List.mem_map_of_mem hr))
  constructor
  · intro hnot e hmem
    -- the recent keys are 2000 of the 2001, and not the front one
    have hlenlive := (List.subperm_of_subset hn (List.map_subset Prod.fst hlive)).length_le
    rw [List.length_map, List.length_map, List.length_cons] at hlenlive
    have hkeys : (recentMarks (m :: f.marks) m.2).map Prod.fst ⊆ rest.map Prod.fst := by
      intro k hk
      rcases List.mem_cons.mp (hsub hk) with rfl | hk'
      · exact absurd hk hnot
      · exact hk'
    have hrecent := (mem_iff_of_length_le (recent_nodup f m) hkeys (by
      rw [recentMarks_eq, List.length_map, List.length_map, List.length_take]
      omega) e.1).mp (List.mem_map_of_mem hmem)
    obtain ⟨e', he', hkey⟩ := List.mem_map.mp hrecent
    rw [← hkey]
    exact hsooner e' he' front (hlive List.mem_cons_self) hnot
  · intro holdest hrecent
    obtain ⟨e, hmem, hnot⟩ : ∃ e ∈ rest, e.1 ∉ (recentMarks (m :: f.marks) m.2).map Prod.fst := by
      by_contra hnone
      push Not at hnone
      have hin : (front :: rest).map Prod.fst ⊆ (recentMarks (m :: f.marks) m.2).map Prod.fst := by
        intro k hk
        rcases List.mem_cons.mp hk with rfl | hk
        · exact hrecent
        · obtain ⟨e, hmem, rfl⟩ := List.mem_map.mp hk
          exact hnone e hmem
      have hlen := (List.subperm_of_subset hn hin).length_le
      rw [List.length_map, List.length_map, List.length_cons, recentMarks_eq, List.length_take] at hlen
      omega
    obtain ⟨a, ha, hkey⟩ := List.mem_map.mp hrecent
    have hless := hsooner a ha e (hlive (List.mem_cons_of_mem _ hmem)) hnot
    rw [hkey] at hless
    exact absurd (holdest e hmem) hless.asymm

theorem dropsRight_iff (hf : Timed f) (he : Exact f) (hlast : ∀ last ∈ f.marks.head?, last.2 ≤ m.2) :
    DropsRight f m ↔ InOrder f m := by
  have hscan := pairwise_iff_dropWhile (l := (f.keys.set m.1 m.2).entries)
    (p := fun e => decide (finalizedTtlSeconds < m.2 - e.2))
  simp only [decide_eq_true_eq, decide_eq_false_iff_not, not_lt] at hscan
  have hfilter (hexpired : ∀ e ∈ unexpired f m, m.2 - e.2 ≤ finalizedTtlSeconds) :
      unexpired f m = (f.keys.set m.1 m.2).entries.filter fun e => m.2 - e.2 ≤ finalizedTtlSeconds := by
    have hsame := dropWhile_eq_filter (l := (f.keys.set m.1 m.2).entries)
      (p := fun e => decide (finalizedTtlSeconds < m.2 - e.2)) fun e hmem => by simpa using hexpired e hmem
    simpa only [unexpired, ← decide_not, not_lt] using hsame
  constructor
  · rintro ⟨hexpired, holdest⟩
    refine ⟨hscan.mpr hexpired, fun front rest hleft hcap => ?_⟩
    rw [← hfilter hexpired] at hleft
    apply (notRecent_iff hf he hlast hexpired hleft hcap).mp
    refine holdest ?_ front (by rw [hleft]; rfl)
    rw [hleft, List.length_cons]
    omega
  · rintro ⟨hsorted, holdest⟩
    have hexpired := hscan.mp hsorted
    refine ⟨hexpired, fun hcap e hhead => ?_⟩
    cases hleft : unexpired f m with
    | nil =>
      rw [hleft] at hcap
      contradiction
    | cons front rest =>
      rw [hleft] at hhead hcap
      obtain rfl := Option.some.inj hhead
      have hcap' : maxFinalizedKeys ≤ rest.length := Nat.le_of_lt_succ hcap
      apply (notRecent_iff hf he hlast hexpired hleft hcap').mpr
      exact holdest front rest (by rw [← hfilter hexpired, hleft]) hcap'

theorem exact_iff (hf : Timed f) (he : Exact f) (h : mark f m = some f') : Exact f' ↔ InOrder f m := by
  rw [mark] at h
  split_ifs at h with hlast
  obtain rfl := Option.some.inj h
  rw [← dropsRight_iff hf he hlast]
  exact ⟨exact_dropsRight hf he hlast, dropsRight_exact hf he hlast⟩

theorem init_timed : Timed .init := ⟨fun k v h => by contradiction, List.Pairwise.nil⟩

theorem init_exact : Exact .init := fun _ => Iff.rfl

theorem getElem?_marksSince {marks : List (String × ℚ)} {k : String} {v : ℚ} (h : marks.lookup k = some v) :
    marks[marksSince marks k]? = some (k, v) := by
  induction marks with
  | nil => contradiction
  | cons a marks ih =>
    rw [Dict.lookup_pair] at h
    split_ifs at h with hk
    · obtain rfl := Option.some.inj h
      rw [marksSince, List.map_cons, hk, List.idxOf_cons_self]
      rfl
    · rw [marksSince, List.map_cons, List.idxOf_cons_ne _ (Ne.symm hk), List.getElem?_cons_succ]
      exact ih h

theorem lookup_sooner {marks : List (String × ℚ)} (hm : marks.Pairwise fun a b => b.2 ≤ a.2) {j k : String}
    {v w : ℚ} (hj : marks.lookup j = some v) (hk : marks.lookup k = some w)
    (h : marksSince marks k < marksSince marks j) : v ≤ w := by
  obtain ⟨hjlt, hjmark⟩ := List.getElem?_eq_some_iff.mp (getElem?_marksSince hj)
  obtain ⟨hklt, hkmark⟩ := List.getElem?_eq_some_iff.mp (getElem?_marksSince hk)
  have hle := List.pairwise_iff_getElem.mp hm _ _ hklt hjlt h
  rwa [hjmark, hkmark] at hle

def Sorted (f : Filter) : Prop :=
  f.keys.entries.Pairwise fun a b => marksSince f.marks b.1 < marksSince f.marks a.1

theorem Sorted.set (hs : Sorted f) (hnew : m.1 ∉ f.keys.keys) : (f.keys.set m.1 m.2).entries.Pairwise
    fun a b => marksSince (m :: f.marks) b.1 < marksSince (m :: f.marks) a.1 := by
  have hlater : ∀ e ∈ f.keys.entries, marksSince (m :: f.marks) e.1 = marksSince f.marks e.1 + 1 := by
    intro e he
    have hne : m.1 ≠ e.1 := fun h => hnew (h ▸ List.mem_map_of_mem he)
    exact List.idxOf_cons_ne _ hne
  rw [Dict.entries_set_of_notMem hnew, List.pairwise_append]
  refine ⟨List.Pairwise.imp_of_mem (fun {a b} ha hb hab => ?_) hs, List.pairwise_singleton _ _, fun a ha b hb => ?_⟩
  · rw [hlater a ha, hlater b hb]
    exact Nat.succ_lt_succ hab
  · rw [List.mem_singleton.mp hb, hlater a ha, marksSince, List.map_cons, List.idxOf_cons_self]
    exact Nat.succ_pos _

theorem Sorted.inOrder (hs : Sorted f) (hf : Timed f) (hlast : (m :: f.marks).Pairwise fun a b => b.2 ≤ a.2)
    (hnew : m.1 ∉ f.keys.keys) : InOrder f m := by
  have hsorted := hs.set hnew
  constructor
  · refine List.Pairwise.imp_of_mem (fun {a b} ha hb hab hexp => ?_) hsorted
    have hlook (e : String × ℚ) (he : e ∈ (f.keys.set m.1 m.2).entries) : (m :: f.marks).lookup e.1 = some e.2 :=
      set_latest hf m e.1 e.2 (Dict.get?_eq_some.mpr he)
    have hle := lookup_sooner hlast (hlook a ha) (hlook b hb) hab
    linarith
  · intro front rest hleft _ e he
    have hrest := hsorted.sublist (List.filter_sublist (p := fun e => decide (m.2 - e.2 ≤ finalizedTtlSeconds)))
    rw [hleft, List.pairwise_cons] at hrest
    exact hrest.1 e he

theorem mark_sorted (hs : Sorted f) (hnew : m.1 ∉ f.keys.keys) (h : mark f m = some f') : Sorted f' := by
  rw [mark] at h
  split_ifs at h
  obtain rfl := Option.some.inj h
  exact (hs.set hnew).sublist (markFinalized_sublist f m)

/-- The filter is exact as long as each mark finds the dict in order, as it does where no key is marked again
before it has left the dict. -/
theorem finalizedKeys_recent_iff (marks : List (String × ℚ)) (f : Filter) :
    (Run (fun f m f' => mark f m = some f' ∧ Exact f') .init marks f ↔
      Run (fun f m f' => mark f m = some f' ∧ InOrder f m) .init marks f) ∧
    (Run (fun f m f' => mark f m = some f' ∧ m.1 ∉ f.keys.keys) .init marks f →
      Run (fun f m f' => mark f m = some f' ∧ Exact f') .init marks f) := by
  constructor
  · apply Run.congr_of_invariant (P := fun f => Timed f ∧ Exact f)
    · rintro f m f' ⟨hf, -⟩ ⟨hs, he⟩
      exact ⟨mark_timed hf hs, he⟩
    · rintro f m f' ⟨hf, he⟩
      exact and_congr_right fun hs => exact_iff hf he hs
    · exact ⟨init_timed, init_exact⟩
  · intro h
    have hexact {f f' : Filter} {m : String × ℚ} (hf : Timed f ∧ Exact f ∧ Sorted f)
        (hm : mark f m = some f' ∧ m.1 ∉ f.keys.keys) : Exact f' := by
      obtain ⟨hf, he, hs⟩ := hf
      have hmarks : f'.marks = m :: f.marks := by
        have hm := hm.1
        rw [mark] at hm
        split_ifs at hm
        exact congrArg Filter.marks (Option.some.inj hm).symm
      have hordered := (mark_timed hf hm.1).ordered
      rw [hmarks] at hordered
      exact (exact_iff hf he hm.1).mpr (hs.inOrder hf hordered hm.2)
    refine h.mono_of_invariant (P := fun f => Timed f ∧ Exact f ∧ Sorted f) ?_ ?_
      ⟨init_timed, init_exact, List.Pairwise.nil⟩
    · intro f m f' hf hm
      exact ⟨mark_timed hf.1 hm.1, hexact hf hm, mark_sorted hf.2.2 hm.2 hm.1⟩
    · intro f m f' hf hm
      exact ⟨hm.1, hexact hf hm⟩

/-- A key that is marked again keeps its place in front of older ones. -/
theorem finalizedKeys_recent_fails :
    ¬∀ (marks : List (String × ℚ)) (f : Filter),
      Run (fun f m f' => mark f m = some f') .init marks f → Exact f := by
  intro h
  let marks : List (String × ℚ) := [("a", 0), ("b", 0), ("a", 200), ("c", 400)]
  obtain ⟨f, hrun, hstale⟩ := exists_run mark .init marks
    (fun f => "b" ∈ f.keys.keys ∧ "b" ∉ (recentMarks f.marks (lastMark f.marks)).map Prod.fst)
    (by decide +kernel)
  obtain ⟨hin, hout⟩ := of_decide_eq_true hstale
  exact hout ((h marks f hrun "b").mp hin)

end IpfsLite.Tracker.Finalized
