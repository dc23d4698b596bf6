import IpfsLite.TrackerPeers

/-!
The streams of each peer counted by protocol, apart from the tracker. `excess` is what the buckets
hold too much: a protocol that becomes known is counted in its own bucket also where the bucket
"unknown" has nothing left to take.
-/

namespace IpfsLite.Tracker

structure ProtocolCount where
  byProtocol : Dict String ℕ := .empty
  totalOpened : ℕ := 0

namespace ProtocolCount

def unknown (c : ProtocolCount) : ℕ := (c.byProtocol.get? "unknown").getD 0

def excess (c : ProtocolCount) : ℤ := c.byProtocol.sumBy id - c.totalOpened

def Positive (c : ProtocolCount) : Prop := ∀ proto n, c.byProtocol.get? proto = some n → 0 < n

def takeUnknown (c : ProtocolCount) : Dict String ℕ :=
  if c.unknown ≤ 1 then c.byProtocol.erase "unknown" else c.byProtocol.set "unknown" (c.unknown - 1)

def learn (c : ProtocolCount) : Option String → ProtocolCount
  | none => c
  | some proto => { c with byProtocol := increment c.takeUnknown proto }

end ProtocolCount

/-- What a learned protocol leaves in the bucket "unknown". -/
def spend : Option String → ℕ → ℕ
  | none, n => n
  | some proto, n => if proto = "unknown" then n else n - 1

variable {c : ProtocolCount} {proto : Option String}

theorem sumAt_id (d : Dict String ℕ) (k : String) : Dict.sumAt id d k = (d.get? k).getD 0 := by
  rw [Dict.sumAt, Option.map_id]
  rfl

theorem sumBy_increment (d : Dict String ℕ) (k : String) : (increment d k).sumBy id = d.sumBy id + 1 := by
  have hset := Dict.sumBy_set id d k ((d.get? k).getD 0 + 1)
  rw [sumAt_id] at hset
  dsimp only [id_eq] at hset
  rw [increment]
  omega

theorem positive_increment {d : Dict String ℕ} (h : ∀ k n, d.get? k = some n → 0 < n) (key : String) :
    ∀ k n, (increment d key).get? k = some n → 0 < n := by
  intro k n hn
  rw [increment, Dict.get?_set] at hn
  split_ifs at hn
  · obtain rfl := Option.some.inj hn
    omega
  · exact h k n hn

namespace ProtocolCount

theorem sumBy_takeUnknown (c : ProtocolCount) :
    c.takeUnknown.sumBy id + (if c.unknown = 0 then 0 else 1) = c.byProtocol.sumBy id := by
  have herase := Dict.sumBy_erase id c.byProtocol "unknown"
  have hset := Dict.sumBy_set id c.byProtocol "unknown" (c.unknown - 1)
  rw [sumAt_id] at herase hset
  change _ + c.unknown = _ at herase
  change _ + c.unknown = _ at hset
  dsimp only [id_eq] at hset
  unfold takeUnknown
  split_ifs <;> omega

theorem takeUnknown_get? (c : ProtocolCount) : (c.takeUnknown.get? "unknown").getD 0 = c.unknown - 1 := by
  unfold takeUnknown
  split_ifs
  · rw [Dict.get?_erase, if_pos rfl, Option.getD_none]
    omega
  · rw [Dict.get?_set, if_pos rfl, Option.getD_some]

theorem learn_excess (c : ProtocolCount) (proto : Option String) :
    (c.learn proto).excess = c.excess + if proto ≠ none ∧ c.unknown = 0 then 1 else 0 := by
  cases proto with
  | none => simp [learn]
  | some proto =>
    have htake := c.sumBy_takeUnknown
    have hadd := sumBy_increment c.takeUnknown proto
    simp only [learn, excess, ne_eq, reduceCtorEq, not_false_eq_true, true_and]
    split_ifs at htake ⊢ <;> omega

theorem learn_positive (h : c.Positive) (proto : Option String) : (c.learn proto).Positive := by
  cases proto with
  | none => exact h
  | some proto =>
    refine positive_increment (fun k n hn => ?_) proto
    unfold takeUnknown at hn
    split_ifs at hn with hone
    · rw [Dict.get?_erase] at hn
      split_ifs at hn
      exact h k n hn
    · rw [Dict.get?_set] at hn
      split_ifs at hn
      · obtain rfl := Option.some.inj hn
        omega
      · exact h k n hn

theorem learn_unknown (h : proto ≠ none → c.unknown ≠ 0) : (c.learn proto).unknown = spend proto c.unknown := by
  cases proto with
  | none => rfl
  | some proto =>
    have hpos := h (by simp)
    have htake := c.takeUnknown_get?
    change ((increment c.takeUnknown proto).get? "unknown").getD 0 = if proto = "unknown" then _ else _
    rw [increment, Dict.get?_set]
    split_ifs with hp hp' hp'
    · rw [← hp, htake, Option.getD_some]
      omega
    · exact absurd hp.symm hp'
    · exact absurd hp'.symm hp
    · exact htake

end ProtocolCount

/-! The counts of all peers, along a sweep -/

abbrev Counts := String → Option ProtocolCount

inductive Turn
  | keeps
  | creates
  | ends

namespace Counts

def excess (c : Counts) (p : String) : ℤ := ((c p).map ProtocolCount.excess).getD 0

def unknown (c : Counts) (p : String) : Option ℕ := (c p).map ProtocolCount.unknown

def Positive (c : Counts) : Prop := ∀ p n, c p = some n → n.Positive

def refresh (c : Counts) (heap : Heap) (r : StreamRecord) : Counts :=
  Function.update c r.peerId ((c r.peerId).map (·.learn (learnedProtocol heap r)))

def create (c : Counts) (p : String) : Counts := Function.update c p (some ((c p).getD {}))

def sweep (heap : Heap) (turn : StreamRecord → Turn) : List StreamRecord → Counts → Counts
  | [], c => c
  | r :: rest, c =>
    match turn r with
    | .keeps => sweep heap turn rest (c.refresh heap r)
    | .creates => sweep heap turn rest ((c.refresh heap r).create r.peerId)
    | .ends => c.refresh heap r

end Counts

/-- A protocol that becomes known finds its stream in the bucket "unknown". -/
def Backs (heap : Heap) (r : StreamRecord) (bucket : Option ℕ) : Prop :=
  learnedProtocol heap r ≠ none → bucket ≠ some 0

instance (heap : Heap) (r : StreamRecord) (bucket : Option ℕ) : Decidable (Backs heap r bucket) :=
  inferInstanceAs (Decidable (_ → _))

def Backed (heap : Heap) (turn : StreamRecord → Turn) : List StreamRecord → (String → Option ℕ) → Prop
  | [], _ => True
  | r :: rest, buckets =>
    let left := (buckets r.peerId).map (spend (learnedProtocol heap r))
    Backs heap r (buckets r.peerId) ∧
      match turn r with
      | .keeps => Backed heap turn rest (Function.update buckets r.peerId left)
      | .creates => Backed heap turn rest (Function.update buckets r.peerId (some (left.getD 0)))
      | .ends => True

variable {heap : Heap} {r : StreamRecord}

namespace Counts

theorem refresh_excess (c : Counts) (heap : Heap) (r : StreamRecord) (p : String) :
    (c.refresh heap r).excess p =
      c.excess p + if p = r.peerId ∧ ¬Backs heap r (c.unknown p) then 1 else 0 := by
  unfold excess refresh Backs unknown
  rw [Function.update_apply]
  by_cases hp : p = r.peerId
  · rw [if_pos hp, ← hp]
    cases hc : c p with
    | none => simp
    | some n =>
      rw [Option.map_some, Option.map_some, Option.getD_some, ProtocolCount.learn_excess]
      simp
  · rw [if_neg hp, if_neg fun h => hp h.1, add_zero]

theorem refresh_unknown {c : Counts} (h : Backs heap r (c.unknown r.peerId)) :
    (c.refresh heap r).unknown = Function.update c.unknown r.peerId
      ((c.unknown r.peerId).map (spend (learnedProtocol heap r))) := by
  funext p
  unfold unknown refresh
  rw [Function.update_apply, Function.update_apply]
  split_ifs with hp
  · cases hc : c r.peerId with
    | none => rfl
    | some n =>
      have hn : learnedProtocol heap r ≠ none → n.unknown ≠ 0 := by
        intro hl hzero
        apply h hl
        rw [unknown, hc, Option.map_some, hzero]
      rw [Option.map_some, Option.map_some, Option.map_some, Option.map_some, ProtocolCount.learn_unknown hn]
  · rfl

theorem create_excess (c : Counts) (p : String) : (c.create p).excess = c.excess := by
  funext q
  unfold excess create
  rw [Function.update_apply]
  split_ifs with hq
  · rw [hq]
    cases c p <;> rfl
  · rfl

theorem create_unknown (c : Counts) (p : String) :
    (c.create p).unknown = Function.update c.unknown p (some ((c.unknown p).getD 0)) := by
  funext q
  unfold unknown create
  rw [Function.update_apply, Function.update_apply]
  split_ifs with hq
  · cases c p <;> rfl
  · rfl

theorem refresh_positive {c : Counts} (h : c.Positive) (heap : Heap) (r : StreamRecord) :
    (c.refresh heap r).Positive := by
  intro p n hn
  rw [refresh, Function.update_apply] at hn
  split_ifs at hn
  · obtain ⟨n', hn', rfl⟩ := Option.map_eq_some_iff.mp hn
    exact ProtocolCount.learn_positive (h _ n' hn') _
  · exact h p n hn

theorem create_positive {c : Counts} (h : c.Positive) (p : String) : (c.create p).Positive := by
  intro q n hn
  rw [create, Function.update_apply] at hn
  split_ifs at hn
  · cases hc : c p with
    | none =>
      rw [hc] at hn
      obtain rfl := Option.some.inj hn
      exact fun proto k hk => by contradiction
    | some n' =>
      rw [hc] at hn
      obtain rfl := Option.some.inj hn
      exact h p n' hc
  · exact h q n hn

theorem sweep_positive {c : Counts} (h : c.Positive) (turn : StreamRecord → Turn) (rest : List StreamRecord) :
    (sweep heap turn rest c).Positive := by
  induction rest generalizing c with
  | nil => exact h
  | cons r rest ih =>
    have hrefresh := refresh_positive h heap r
    rw [sweep]
    cases turn r with
    | keeps => exact ih hrefresh
    | creates => exact ih (create_positive hrefresh r.peerId)
    | ends => exact hrefresh

/-- The excess of no peer falls, and none grows exactly under the condition. -/
def Adds (c d : Counts) (backed : Prop) : Prop :=
  ∃ added : String → ℕ, (∀ p, d.excess p = c.excess p + added p) ∧ ((∀ p, added p = 0) ↔ backed)

theorem Adds.of_eq {c d : Counts} (h : d.excess = c.excess) : Adds c d True :=
  ⟨fun _ => 0, fun p => by simp [h], iff_of_true (fun _ => rfl) trivial⟩

theorem Adds.of_refresh {c d : Counts} {turned backed : Prop} (h : Adds (c.refresh heap r) d turned)
    (hrest : Backs heap r (c.unknown r.peerId) → (turned ↔ backed)) :
    Adds c d (Backs heap r (c.unknown r.peerId) ∧ backed) := by
  obtain ⟨added, hadded, hzero⟩ := h
  refine ⟨fun p => (if p = r.peerId ∧ ¬Backs heap r (c.unknown p) then 1 else 0) + added p, ?_, ?_⟩
  · intro p
    rw [hadded, refresh_excess, add_assoc]
    push_cast
    rfl
  · by_cases hb : Backs heap r (c.unknown r.peerId)
    · rw [and_iff_right hb, ← hrest hb, ← hzero]
      refine forall_congr' fun p => ?_
      dsimp only
      rw [if_neg, Nat.zero_add]
      rintro ⟨rfl, hnot⟩
      exact hnot hb
    · refine iff_of_false (fun h => ?_) fun h => hb h.1
      have hone := h r.peerId
      dsimp only at hone
      rw [if_pos ⟨rfl, hb⟩] at hone
      omega

theorem sweep_adds (heap : Heap) (turn : StreamRecord → Turn) (rest : List StreamRecord) (c : Counts) :
    Adds c (sweep heap turn rest c) (Backed heap turn rest c.unknown) := by
  induction rest generalizing c with
  | nil => exact .of_eq rfl
  | cons r rest ih =>
    rw [sweep, Backed]
    cases turn r with
    | keeps =>
      refine (ih _).of_refresh fun hb => ?_
      rw [refresh_unknown hb]
    | creates =>
      have hcreate := ih ((c.refresh heap r).create r.peerId)
      rw [Adds, create_excess] at hcreate
      refine Adds.of_refresh hcreate fun hb => ?_
      rw [create_unknown, refresh_unknown hb, Function.update_self, Function.update_idem]
    | ends => exact (Adds.of_eq rfl).of_refresh fun _ => Iff.rfl

end Counts

end IpfsLite.Tracker
