import IpfsLite.Lib.Rounding
import IpfsLite.Tracker

namespace IpfsLite.Tracker

structure ByCurrentAge where
  under2m : ℕ
  from2mTo5m : ℕ
  from5mTo10m : ℕ
  from10mTo30m : ℕ
  over30m : ℕ
deriving DecidableEq

namespace ByCurrentAge

def of (durations : List ℚ) : ByCurrentAge where
  under2m := durations.countP fun d => d < 120
  from2mTo5m := durations.countP fun d => 120 ≤ d ∧ d < 300
  from5mTo10m := durations.countP fun d => 300 ≤ d ∧ d < 600
  from10mTo30m := durations.countP fun d => 600 ≤ d ∧ d < 1800
  over30m := durations.countP fun d => 1800 ≤ d

def total (b : ByCurrentAge) : ℕ :=
  b.under2m + b.from2mTo5m + b.from5mTo10m + b.from10mTo30m + b.over30m

end ByCurrentAge

/-- The age of the connection that a reference leads to, unless its peer is not known. -/
def ageOf (t : Tracker) (now : ℚ) (ref : ℕ) : Option ℚ :=
  match t.metas[ref]? with
  | some m => if m.peerId ≠ "unknown" then some (now - m.startMono) else none
  | none => none

def activeDurations (t : Tracker) (now : ℚ) : List ℚ :=
  (t.connMeta.entries.map Prod.snd).filterMap (t.ageOf now)

/-- The part `by_current_age` of the snapshot: a set of rounded durations stands for the connections. -/
def byCurrentAge (t : Tracker) (now : ℚ) : ByCurrentAge :=
  .of ((t.activeDurations now).map (roundTo 2)).dedup

def ages (t : Tracker) (now : ℚ) : List ℚ := (t.connMeta.entries.map Prod.snd).dedup.filterMap (t.ageOf now)

def ageLimits : List ℚ := [120, 300, 600, 1800]

structure AgesApart (t : Tracker) (now : ℚ) : Prop where
  apart : ((t.ages now).map (roundTo 2)).Nodup
  below : ∀ a ∈ t.ages now, ∀ limit ∈ ageLimits, a < limit → roundTo 2 a < limit

structure AgesCounted (t : Tracker) (now : ℚ) : Prop where
  total : (t.byCurrentAge now).total = (t.ages now).length
  buckets : t.byCurrentAge now = .of (t.ages now)

variable {t : Tracker} {now : ℚ} {ds es : List ℚ} {limit : ℚ}

def atLeast (limit : ℚ) (ds : List ℚ) : ℕ := ds.countP fun d => limit ≤ d

theorem countP_between (low high : ℚ) (h : low ≤ high) (ds : List ℚ) :
    (ds.countP fun d => low ≤ d ∧ d < high) + atLeast high ds = atLeast low ds := by
  unfold atLeast
  induction ds with
  | nil => rfl
  | cons d ds ih =>
    have hone : (if low ≤ d ∧ d < high then 1 else 0) + (if high ≤ d then 1 else 0) =
        if low ≤ d then 1 else 0 := by
      by_cases hhigh : high ≤ d
      · simp [hhigh, h.trans hhigh]
      · simp [hhigh, not_le.mp hhigh]
    simp only [List.countP_cons, decide_eq_true_eq]
    omega

theorem countP_under (limit : ℚ) (ds : List ℚ) : (ds.countP fun d => d < limit) + atLeast limit ds = ds.length := by
  have hsplit := List.length_eq_countP_add_countP (fun d => decide (d < limit)) (l := ds)
  simp only [decide_eq_true_eq, not_lt] at hsplit
  exact hsplit.symm

theorem of_eq_iff : ByCurrentAge.of ds = ByCurrentAge.of es ↔
    ds.length = es.length ∧ ∀ limit ∈ ageLimits, atLeast limit ds = atLeast limit es := by
  have hunder := countP_under 120
  have hfirst := countP_between 120 300 (by norm_num)
  have hsecond := countP_between 300 600 (by norm_num)
  have hthird := countP_between 600 1800 (by norm_num)
  have hlast (ds : List ℚ) : (ds.countP fun d => 1800 ≤ d) = atLeast 1800 ds := rfl
  simp only [ByCurrentAge.of, ByCurrentAge.mk.injEq, ageLimits, List.forall_mem_cons, hlast]
  have hds := And.intro (hunder ds) (And.intro (hfirst ds) (And.intro (hsecond ds) (hthird ds)))
  have hes := And.intro (hunder es) (And.intro (hfirst es) (And.intro (hsecond es) (hthird es)))
  constructor
  · intro h
    refine ⟨by omega, by omega, by omega, by omega, by omega, fun _ hx => absurd hx List.not_mem_nil⟩
  · rintro ⟨hlen, h120, h300, h600, h1800, -⟩
    refine ⟨by omega, by omega, by omega, by omega, h1800⟩

theorem total_of (ds : List ℚ) : (ByCurrentAge.of ds).total = ds.length := by
  have hunder := countP_under 120 ds
  have hfirst := countP_between 120 300 (by norm_num) ds
  have hsecond := countP_between 300 600 (by norm_num) ds
  have hthird := countP_between 600 1800 (by norm_num) ds
  have hlast : (ds.countP fun d => 1800 ≤ d) = atLeast 1800 ds := rfl
  simp only [ByCurrentAge.total, ByCurrentAge.of, hlast]
  omega

theorem byCurrentAge_eq (t : Tracker) (now : ℚ) :
    t.byCurrentAge now = .of ((t.ages now).map (roundTo 2)).dedup := by
  have hperm : List.Perm ((t.activeDurations now).map (roundTo 2)).dedup
      ((t.ages now).map (roundTo 2)).dedup := by
    refine (List.perm_ext_iff_of_nodup (List.nodup_dedup _) (List.nodup_dedup _)).mpr fun d => ?_
    simp only [List.mem_dedup, List.mem_map, activeDurations, ages, List.mem_filterMap]
  unfold byCurrentAge ByCurrentAge.of
  simp only [hperm.countP_eq]

theorem limit_le_roundTo (h : limit ∈ ageLimits) {a : ℚ} (ha : limit ≤ a) : limit ≤ roundTo 2 a := by
  have hcents : ∃ n : ℤ, limit = n / 10 ^ 2 := by
    simp only [ageLimits, List.mem_cons, List.not_mem_nil, or_false] at h
    rcases h with rfl | rfl | rfl | rfl
    · exact ⟨12000, by norm_num⟩
    · exact ⟨30000, by norm_num⟩
    · exact ⟨60000, by norm_num⟩
    · exact ⟨180000, by norm_num⟩
  obtain ⟨n, rfl⟩ := hcents
  exact le_roundTo ha

/-- Rounding moves an age across a limit only upwards, so equal counts mean that none is moved. -/
theorem atLeast_roundTo_iff (h : limit ∈ ageLimits) (ds : List ℚ) :
    atLeast limit (ds.map (roundTo 2)) = atLeast limit ds ↔
      ∀ a ∈ ds, a < limit → roundTo 2 a < limit := by
  have hle (es : List ℚ) : atLeast limit es ≤ atLeast limit (es.map (roundTo 2)) := by
    rw [atLeast, atLeast, List.countP_map]
    refine List.countP_mono_left fun a _ ha => ?_
    simp only [Function.comp_apply, decide_eq_true_eq] at ha ⊢
    exact limit_le_roundTo h ha
  induction ds with
  | nil => simp [atLeast]
  | cons a ds ih =>
    have hrest := hle ds
    rw [List.forall_mem_cons]
    refine Iff.trans ?_ (and_congr_right fun _ => ih)
    unfold atLeast at hrest ⊢
    rw [List.map_cons, List.countP_cons, List.countP_cons]
    simp only [decide_eq_true_eq]
    by_cases ha : limit ≤ a
    · simp [ha, limit_le_roundTo h ha, not_lt.mpr ha]
    · by_cases hr : limit ≤ roundTo 2 a
      · rw [if_pos hr, if_neg ha]
        refine iff_of_false (by omega) fun hcond => ?_
        exact absurd (hcond.1 (not_le.mp ha)) (not_lt.mpr hr)
      · simp [ha, hr, not_le.mp hr]

theorem ages_counted_iff (t : Tracker) (now : ℚ) : AgesCounted t now ↔ AgesApart t now := by
  have hrounded : ((t.ages now).map (roundTo 2)).length = (t.ages now).length := List.length_map _
  constructor
  · rintro ⟨htotal, hbuckets⟩
    rw [byCurrentAge_eq] at htotal hbuckets
    rw [total_of, ← hrounded] at htotal
    have hdedup : ((t.ages now).map (roundTo 2)).dedup = (t.ages now).map (roundTo 2) :=
      (List.dedup_sublist _).eq_of_length htotal
    rw [hdedup] at hbuckets
    constructor
    · exact List.dedup_eq_self.mp hdedup
    · intro a ha limit hlimit
      exact (atLeast_roundTo_iff hlimit _).mp ((of_eq_iff.mp hbuckets).2 limit hlimit) a ha
  · rintro ⟨hapart, hbelow⟩
    have hbuckets : t.byCurrentAge now = .of (t.ages now) := by
      rw [byCurrentAge_eq, List.dedup_eq_self.mpr hapart, of_eq_iff]
      refine ⟨hrounded, fun limit hlimit => ?_⟩
      exact (atLeast_roundTo_iff hlimit _).mpr fun a ha => hbelow a ha limit hlimit
    exact ⟨by rw [hbuckets, total_of], hbuckets⟩

theorem ages_counted_fails : ¬∀ (t : Tracker) (now : ℚ), AgesCounted t now := by
  intro h
  let conn (id : ObjId) (peer : String) : ConnObj :=
    ⟨id, .ok none, .ok (some peer), ⟨"outbound", "tcp", "Noise", "yamux", none⟩⟩
  let t : Tracker := ((init.connected 1 "t1" (conn 1 "QmA")).1.connected (1001 / 1000) "t1" (conn 2 "QmB")).1
  have htotal := (h t 100).total
  revert htotal
  decide +kernel

end IpfsLite.Tracker
