import IpfsLite.Cid
import IpfsLite.Lib.Dict
import IpfsLite.Lib.Runs

/-!
`MetricsBlockStore` with any number of calls in progress. A step of a call is one inner call that
takes effect, with the code up to the next `await`; the gauges are changed in a step of their own,
after the inner call returns.
-/

namespace IpfsLite.MetricsBlockStore

open Runs

abbrev Block := Bytes × Bytes

structure World where
  store : Dict Bytes Bytes
  blocksTotal : ℕ
  sizeBytes : ℕ

inductive Call
  | putBlock (cid data : Bytes)
  | putMany (blocks : List Block)
  | deleteBlock (cid : Bytes)

/-- Where a call waits. The flag of a block says that `has_block` did not find it. -/
inductive Task
  | putChecks (cid data : Bytes)
  | putStores (cid data : Bytes) (isNew : Bool)
  | putCounts (data : Bytes) (isNew : Bool)
  | manyChecks (checked : List (Block × Bool)) (todo : List Block)
  | manyStores (stored todo : List (Block × Bool))
  | manyCounts (stored : List (Block × Bool))
  | deleteChecks (cid : Bytes)
  | deleteSizes (cid : Bytes)
  | deleteErases (cid : Bytes) (size : ℕ)
  | deleteCounts (size : ℕ)

def Call.task : Call → Task
  | .putBlock cid data => .putChecks cid data
  | .putMany blocks => .manyChecks [] blocks
  | .deleteBlock cid => .deleteChecks cid

namespace World

def has (w : World) (cid : Bytes) : Bool := (w.store.get? cid).isSome

def put (w : World) (b : Block) : World := { w with store := w.store.set b.1 b.2 }

/-- `get_size`; a block that is missing has size 0, be it an exception or no data. -/
def size (w : World) (cid : Bytes) : ℕ := ((w.store.get? cid).map List.length).getD 0

def inc (w : World) (data : Bytes) : World :=
  { w with blocksTotal := w.blocksTotal + 1, sizeBytes := w.sizeBytes + data.length }

def incNew (w : World) (b : Block × Bool) : World := if b.2 then w.inc b.1.2 else w

def dec (w : World) (size : ℕ) : World :=
  { w with
    blocksTotal := if 0 < w.blocksTotal then w.blocksTotal - 1 else w.blocksTotal
    sizeBytes := if 0 < size ∧ size ≤ w.sizeBytes then w.sizeBytes - size else w.sizeBytes }

end World

/-- `hasPutMany` says whether the inner store has a `put_many` of its own. -/
def advance (hasPutMany : Bool) (w : World) : Task → World × Option Task
  | .putChecks cid data => (w, some (.putStores cid data (!w.has cid)))
  | .putStores cid data isNew => (w.put (cid, data), some (.putCounts data isNew))
  | .putCounts data isNew => (if isNew then w.inc data else w, none)
  | .manyChecks checked [] => (w, some (.manyStores [] checked))
  | .manyChecks checked (b :: todo) => (w, some (.manyChecks (checked ++ [(b, !w.has b.1)]) todo))
  | .manyStores stored [] => (w, some (.manyCounts stored))
  | .manyStores stored (b :: todo) =>
    if hasPutMany then
      ((b :: todo).foldl (fun w b => w.put b.1) w, some (.manyCounts (stored ++ b :: todo)))
    else (w.put b.1, some (.manyStores (stored ++ [b]) todo))
  | .manyCounts stored => (stored.foldl World.incNew w, none)
  | .deleteChecks cid => (w, if w.has cid then some (.deleteSizes cid) else none)
  | .deleteSizes cid => (w, some (.deleteErases cid (w.size cid)))
  | .deleteErases cid size => ({ w with store := w.store.erase cid }, some (.deleteCounts size))
  | .deleteCounts size => (w.dec size, none)

structure Sys where
  world : World
  tasks : List Task

inductive Event
  | begin (call : Call)
  | run (i : ℕ)

def step (hasPutMany : Bool) (s : Sys) : Event → Option Sys
  | .begin call => some { s with tasks := s.tasks ++ [call.task] }
  | .run i =>
    (s.tasks[i]?).map fun t =>
      let p := advance hasPutMany s.world t
      ⟨p.1, s.tasks.take i ++ p.2.toList ++ s.tasks.drop (i + 1)⟩

def Matches (w : World) : Prop :=
  w.blocksTotal = w.store.entries.length ∧ w.sizeBytes = (w.store.entries.map fun e => e.2.length).sum

def SameBytes (content : Bytes → Bytes) : Event → Prop
  | .begin (.putBlock cid data) => data = content cid
  | .begin (.putMany blocks) => ∀ b ∈ blocks, b.2 = content b.1
  | .begin (.deleteBlock _) | .run _ => True

def StoresNew (w : World) : List (Block × Bool) → Prop
  | [] => True
  | b :: rest => b.2 = !w.has b.1.1 ∧ StoresNew (w.put b.1) rest

/-- What a call knows of the store still holds when it acts on it, and the gauges are high enough
for what it takes off. -/
def StillTrue (hasPutMany : Bool) (w : World) : Task → Prop
  | .putStores cid _ isNew => isNew = !w.has cid
  | .manyStores _ (b :: todo) => if hasPutMany then StoresNew w (b :: todo) else b.2 = !w.has b.1.1
  | .deleteErases cid size => ∃ data, w.store.get? cid = some data ∧ data.length = size
  | .deleteCounts size => 0 < w.blocksTotal ∧ size ≤ w.sizeBytes
  | _ => True

def Undisturbed (hasPutMany : Bool) (s : Sys) : Event → Prop
  | .begin _ => True
  | .run i => ∀ t, s.tasks[i]? = some t → StillTrue hasPutMany s.world t

inductive Gauge
  | blocksTotal
  | sizeBytes

namespace Gauge

def weight : Gauge → ℕ → ℕ
  | blocksTotal, _ => 1
  | sizeBytes, n => n

def value (w : World) : Gauge → ℕ
  | blocksTotal => w.blocksTotal
  | sizeBytes => w.sizeBytes

def stored (g : Gauge) (store : Dict Bytes Bytes) : ℕ := store.sumBy fun data => g.weight data.length

def added (g : Gauge) (b : Block × Bool) : ℕ := if b.2 then g.weight b.1.2.length else 0

def pending (g : Gauge) : Task → ℤ
  | .putCounts data isNew => g.added (([], data), isNew)
  | .manyStores stored _ | .manyCounts stored => ((stored.map g.added).sum : ℕ)
  | .deleteCounts size => -g.weight size
  | _ => 0

end Gauge

def Balanced (s : Sys) : Prop :=
  ∀ g : Gauge, (g.value s.world : ℤ) + (s.tasks.map g.pending).sum = g.stored s.world.store

def Task.blocks : Task → List Block
  | .putChecks cid data | .putStores cid data _ => [(cid, data)]
  | .manyChecks checked todo => checked.map Prod.fst ++ todo
  | .manyStores _ todo => todo.map Prod.fst
  | _ => []

def OnlyContent (content : Bytes → Bytes) (store : Dict Bytes Bytes) : Prop :=
  ∀ cid data, store.get? cid = some data → data = content cid

structure HoldsContent (content : Bytes → Bytes) (s : Sys) : Prop where
  store : OnlyContent content s.world.store
  tasks : ∀ t ∈ s.tasks, ∀ b ∈ t.blocks, b.2 = content b.1

variable {hasPutMany : Bool} {content : Bytes → Bytes} {w : World} {s s' : Sys}

theorem matches_iff : Matches w ↔ ∀ g : Gauge, g.value w = g.stored w.store := by
  have hblocks : Gauge.stored .blocksTotal w.store = w.store.entries.length := by
    simp [Gauge.stored, Dict.sumBy, Gauge.weight]
  constructor
  · rintro ⟨hcount, hsize⟩ g
    cases g with
    | blocksTotal => exact hcount.trans hblocks.symm
    | sizeBytes => exact hsize
  · intro h
    exact ⟨(h .blocksTotal).trans hblocks, h .sizeBytes⟩

theorem stored_put (g : Gauge) (hstore : OnlyContent content w.store)
    {b : Block} (hb : b.2 = content b.1) :
    g.stored (w.put b).store = g.stored w.store + g.added (b, !w.has b.1) := by
  have hset := Dict.sumBy_set (fun data => g.weight data.length) w.store b.1 b.2
  rw [Gauge.stored, World.put, Gauge.stored, Gauge.added, World.has]
  rw [Dict.sumAt] at hset
  cases hget : w.store.get? b.1 with
  | none =>
    rw [hget] at hset
    exact hset
  | some data =>
    rw [hget, hstore b.1 data hget, ← hb] at hset
    exact Nat.add_right_cancel hset

theorem onlyContent_put (hstore : OnlyContent content w.store) {b : Block} (hb : b.2 = content b.1) :
    OnlyContent content (w.put b).store := by
  intro cid data hget
  rw [World.put, Dict.get?_set] at hget
  split_ifs at hget with hcid
  · rw [← Option.some.inj hget, hcid, hb]
  · exact hstore cid data hget

theorem onlyContent_puts (hstore : OnlyContent content w.store) {bs : List (Block × Bool)}
    (hbs : ∀ b ∈ bs, b.1.2 = content b.1.1) :
    OnlyContent content (bs.foldl (fun w b => w.put b.1) w).store := by
  induction bs generalizing w with
  | nil => exact hstore
  | cons b bs ih =>
    exact ih (onlyContent_put hstore (hbs b List.mem_cons_self)) fun b' hb' => hbs b' (List.mem_cons_of_mem _ hb')

theorem value_incNew (g : Gauge) (w : World) (b : Block × Bool) :
    g.value (w.incNew b) = g.value w + g.added b := by
  unfold World.incNew Gauge.added
  cases b.2 with
  | false => rfl
  | true => cases g <;> rfl

theorem incNew_foldl (g : Gauge) (bs : List (Block × Bool)) (w : World) :
    g.value (bs.foldl World.incNew w) = g.value w + (bs.map g.added).sum ∧
      (bs.foldl World.incNew w).store = w.store := by
  induction bs generalizing w with
  | nil => exact ⟨rfl, rfl⟩
  | cons b bs ih =>
    obtain ⟨hvalue, hstore⟩ := ih (w.incNew b)
    rw [List.foldl_cons, hvalue, hstore, value_incNew, List.map_cons, List.sum_cons, Nat.add_assoc]
    refine ⟨rfl, ?_⟩
    unfold World.incNew
    split_ifs
    · rfl
    · rfl

theorem put_foldl (g : Gauge) {bs : List (Block × Bool)} (hnew : StoresNew w bs)
    (hstore : OnlyContent content w.store)
    (hbs : ∀ b ∈ bs, b.1.2 = content b.1.1) :
    g.stored (bs.foldl (fun w b => w.put b.1) w).store = g.stored w.store + (bs.map g.added).sum ∧
      g.value (bs.foldl (fun w b => w.put b.1) w) = g.value w := by
  induction bs generalizing w with
  | nil => exact ⟨rfl, rfl⟩
  | cons b bs ih =>
    obtain ⟨hflag, hnew⟩ := hnew
    have hb := hbs b List.mem_cons_self
    obtain ⟨hstored, hvalue⟩ := ih hnew (onlyContent_put hstore hb) fun b' hb' => hbs b' (List.mem_cons_of_mem _ hb')
    have hput := stored_put g hstore hb
    rw [← hflag] at hput
    rw [List.foldl_cons, hstored, hvalue, hput, List.map_cons, List.sum_cons, Nat.add_assoc]
    refine ⟨rfl, ?_⟩
    cases g
    · rfl
    · rfl

theorem stored_erase (g : Gauge) {cid data : Bytes} (hget : w.store.get? cid = some data) :
    g.stored (w.store.erase cid) + g.weight data.length = g.stored w.store := by
  have herase := Dict.sumBy_erase (fun data => g.weight data.length) w.store cid
  rw [Dict.sumAt, hget] at herase
  exact herase

theorem value_dec (g : Gauge) {size : ℕ} (hblocks : 0 < w.blocksTotal) (hsize : size ≤ w.sizeBytes) :
    g.value (w.dec size) + g.weight size = g.value w := by
  cases g with
  | blocksTotal =>
    simp only [Gauge.value, Gauge.weight, World.dec, if_pos hblocks]
    omega
  | sizeBytes =>
    simp only [Gauge.value, Gauge.weight, World.dec]
    split_ifs
    · omega
    · omega

theorem dec_store (w : World) (size : ℕ) : (w.dec size).store = w.store := rfl

theorem advance_balanced (g : Gauge) {t : Task}
    (hstore : OnlyContent content w.store)
    (ht : ∀ b ∈ t.blocks, b.2 = content b.1) (hok : StillTrue hasPutMany w t) :
    (g.value (advance hasPutMany w t).1 : ℤ) + ((advance hasPutMany w t).2.toList.map g.pending).sum -
      g.stored (advance hasPutMany w t).1.store = g.value w + g.pending t - g.stored w.store := by
  have hvalue (b : Block) : g.value (w.put b) = g.value w := by
    cases g <;> rfl
  cases t with
  | putChecks cid data => simp [advance, Gauge.pending]
  | putStores cid data isNew =>
    have hput := stored_put g hstore (ht (cid, data) List.mem_cons_self)
    have hflag : isNew = !w.has cid := hok
    rw [← hflag] at hput
    have hadded : g.added (([], data), isNew) = g.added ((cid, data), isNew) := rfl
    simp only [advance, Option.toList_some, List.map_cons, List.map_nil, List.sum_cons, List.sum_nil,
      Gauge.pending, hvalue, hput, hadded]
    push_cast
    ring
  | putCounts data isNew =>
    have hinc := value_incNew g w (([], data), isNew)
    have hsame : (if isNew then w.inc data else w) = w.incNew (([], data), isNew) := rfl
    have hkept : (w.incNew (([], data), isNew)).store = w.store := (incNew_foldl g [(([], data), isNew)] w).2
    simp only [advance, hsame, hinc, hkept, Gauge.pending, Option.toList_none, List.map_nil, List.sum_nil]
    push_cast
    ring
  | manyChecks checked todo =>
    cases todo with
    | nil => simp [advance, Gauge.pending]
    | cons b todo => simp [advance, Gauge.pending]
  | manyStores stored todo =>
    cases todo with
    | nil => simp [advance, Gauge.pending]
    | cons b todo =>
      cases hasPutMany with
      | true =>
        have hnew : StoresNew w (b :: todo) := hok
        obtain ⟨hstored, hkept⟩ := put_foldl g hnew hstore
          fun b' hb' => ht b'.1 (List.mem_map_of_mem hb')
        simp only [advance, if_true, Option.toList_some, List.map_cons, List.map_nil, List.sum_cons, List.sum_nil,
          Gauge.pending, hstored, hkept, List.map_append, List.sum_append]
        push_cast
        ring
      | false =>
        have hput := stored_put g hstore (ht b.1 (List.mem_map_of_mem List.mem_cons_self))
        have hflag : b.2 = !w.has b.1.1 := hok
        rw [← hflag] at hput
        simp only [advance, Bool.false_eq_true, if_false, Option.toList_some, List.map_cons, List.map_nil,
          List.sum_cons, List.sum_nil, Gauge.pending, hvalue, hput, List.map_append, List.sum_append]
        push_cast
        ring
  | manyCounts stored =>
    obtain ⟨hcount, hkept⟩ := incNew_foldl g stored w
    simp only [advance, Option.toList_none, List.map_nil, List.sum_nil, Gauge.pending, hcount, hkept]
    push_cast
    ring
  | deleteChecks cid =>
    cases hhas : w.has cid with
    | false => simp [advance, hhas, Gauge.pending]
    | true => simp [advance, hhas, Gauge.pending]
  | deleteSizes cid => simp [advance, Gauge.pending]
  | deleteErases cid size =>
    obtain ⟨data, hget, rfl⟩ := hok
    have herase := stored_erase g hget
    have hkept : g.value { w with store := w.store.erase cid } = g.value w := by
      cases g <;> rfl
    simp only [advance, Option.toList_some, List.map_cons, List.map_nil, List.sum_cons, List.sum_nil,
      Gauge.pending, hkept]
    zify at herase
    linarith
  | deleteCounts size =>
    have hdec := value_dec g hok.1 hok.2
    simp only [advance, Option.toList_none, List.map_nil, List.sum_nil, Gauge.pending, dec_store]
    zify at hdec
    linarith

variable (hasPutMany) in
theorem advance_holds {t : Task}
    (hstore : OnlyContent content w.store)
    (ht : ∀ b ∈ t.blocks, b.2 = content b.1) :
    OnlyContent content (advance hasPutMany w t).1.store ∧
      ∀ t' ∈ (advance hasPutMany w t).2, ∀ b ∈ t'.blocks, b.2 = content b.1 := by
  have hnone {n : Option Task} (hn : n = none) : ∀ t' ∈ n, ∀ b ∈ t'.blocks, b.2 = content b.1 := by
    rintro t' ht'
    rw [hn] at ht'
    contradiction
  have hnext {t' : Task} (hsub : ∀ b ∈ t'.blocks, b ∈ t.blocks) :
      ∀ u ∈ some t', ∀ b ∈ u.blocks, b.2 = content b.1 := by
    rintro u hu b hb
    obtain rfl := Option.some.inj hu
    exact ht b (hsub b hb)
  cases t with
  | putChecks cid data => exact ⟨hstore, hnext fun b hb => hb⟩
  | putStores cid data isNew =>
    exact ⟨onlyContent_put hstore (ht _ List.mem_cons_self), hnext fun b hb => absurd hb List.not_mem_nil⟩
  | putCounts data isNew =>
    refine ⟨?_, hnone rfl⟩
    have hkept := (incNew_foldl .sizeBytes [(([], data), isNew)] w).2
    have hsame : (advance hasPutMany w (.putCounts data isNew)).1.store = w.store := hkept
    rwa [hsame]
  | manyChecks checked todo =>
    cases todo with
    | nil => exact ⟨hstore, hnext fun b hb => List.mem_append_left _ hb⟩
    | cons b todo =>
      refine ⟨hstore, hnext fun b' hb' => ?_⟩
      simpa [Task.blocks, or_assoc] using hb'
  | manyStores stored todo =>
    cases todo with
    | nil => exact ⟨hstore, hnext fun b hb => absurd hb List.not_mem_nil⟩
    | cons b todo =>
      cases hasPutMany with
      | true =>
        refine ⟨onlyContent_puts hstore fun b' hb' => ?_, hnext fun b hb => absurd hb List.not_mem_nil⟩
        exact ht b'.1 (List.mem_map_of_mem hb')
      | false =>
        refine ⟨onlyContent_put hstore (ht b.1 (List.mem_map_of_mem List.mem_cons_self)), ?_⟩
        exact hnext fun b' hb' => List.mem_cons_of_mem _ hb'
  | manyCounts stored =>
    refine ⟨?_, hnone rfl⟩
    have hkept : (advance hasPutMany w (.manyCounts stored)).1.store = w.store :=
      (incNew_foldl .sizeBytes stored w).2
    rwa [hkept]
  | deleteChecks cid =>
    refine ⟨hstore, ?_⟩
    cases hhas : w.has cid with
    | false => exact hnone (by simp [advance, hhas])
    | true =>
      simp only [advance, hhas, if_true]
      exact hnext fun b hb => absurd hb List.not_mem_nil
  | deleteSizes cid => exact ⟨hstore, hnext fun b hb => absurd hb List.not_mem_nil⟩
  | deleteErases cid size =>
    refine ⟨fun cid' data hget => ?_, hnext fun b hb => absurd hb List.not_mem_nil⟩
    simp only [advance, Dict.get?_erase] at hget
    split_ifs at hget
    exact hstore cid' data hget
  | deleteCounts size => exact ⟨hstore, hnone rfl⟩

theorem step_balanced {e : Event} (hs : HoldsContent content s) (hb : Balanced s)
    (hok : Undisturbed hasPutMany s e) (he : step hasPutMany s e = some s') : Balanced s' := by
  intro g
  have hg := hb g
  cases e with
  | begin call =>
    obtain rfl := Option.some.inj he
    have hnone : g.pending call.task = 0 := by
      cases call <;> rfl
    rw [List.map_append, List.sum_append, List.map_singleton, List.sum_singleton, hnone, add_zero]
    exact hg
  | run i =>
    obtain ⟨t, ht, rfl⟩ := Option.map_eq_some_iff.mp he
    obtain ⟨hi, hti⟩ := List.getElem?_eq_some_iff.mp ht
    have hmem : t ∈ s.tasks := List.mem_of_getElem? ht
    have hadvance := advance_balanced g hs.store (hs.tasks t hmem) (hok t ht)
    have hsplit : s.tasks = s.tasks.take i ++ t :: s.tasks.drop (i + 1) := by
      rw [← hti, List.cons_getElem_drop_succ, List.take_append_drop]
    rw [hsplit] at hg
    simp only [List.map_append, List.sum_append, List.map_cons, List.sum_cons] at hg ⊢
    linarith

theorem step_holds {e : Event} (hs : HoldsContent content s) (hsame : SameBytes content e)
    (he : step hasPutMany s e = some s') : HoldsContent content s' := by
  cases e with
  | begin call =>
    obtain rfl := Option.some.inj he
    refine ⟨hs.store, fun t ht => ?_⟩
    rcases List.mem_append.mp ht with ht | ht
    · exact hs.tasks t ht
    · obtain rfl := List.mem_singleton.mp ht
      cases call with
      | putBlock cid data =>
        intro b hb
        obtain rfl := List.mem_singleton.mp hb
        exact hsame
      | putMany blocks => exact hsame
      | deleteBlock cid => exact fun b hb => absurd hb List.not_mem_nil
  | run i =>
    obtain ⟨t, ht, rfl⟩ := Option.map_eq_some_iff.mp he
    obtain ⟨hstore, hnext⟩ := advance_holds hasPutMany hs.store
      (hs.tasks t (List.mem_of_getElem? ht))
    refine ⟨hstore, fun t' ht' => ?_⟩
    rcases List.mem_append.mp ht' with ht' | ht'
    · rcases List.mem_append.mp ht' with ht' | ht'
      · exact hs.tasks t' (List.mem_of_mem_take ht')
      · exact hnext t' (Option.mem_toList.mp ht')
    · exact hs.tasks t' (List.mem_of_mem_drop ht')

theorem run_balanced {events : List Event} (hs : HoldsContent content s) (hb : Balanced s)
    (h : Run (fun s e s' => step hasPutMany s e = some s' ∧ SameBytes content e ∧
      Undisturbed hasPutMany s e) s events s') : Balanced s' := by
  have hinv : HoldsContent content s' ∧ Balanced s' := by
    apply h.invariant (P := fun s => HoldsContent content s ∧ Balanced s)
    · rintro s e s' ⟨hs, hb⟩ ⟨he, hsame, hok⟩
      exact ⟨step_holds hs hsame he, step_balanced hs hb hok he⟩
    · exact ⟨hs, hb⟩
  exact hinv.2

theorem gauges_match {events : List Event} (hstore : OnlyContent content w.store) (hw : Matches w)
    (h : Run (fun s e s' => step hasPutMany s e = some s' ∧ SameBytes content e ∧
      Undisturbed hasPutMany s e) ⟨w, []⟩ events s) (hquiet : s.tasks = []) : Matches s.world := by
  have hstart : Balanced ⟨w, []⟩ := by
    intro g
    simp [matches_iff.mp hw g]
  have hb := run_balanced ⟨hstore, fun t ht => absurd ht List.not_mem_nil⟩ hstart h
  rw [matches_iff]
  intro g
  have hg := hb g
  rw [hquiet, List.map_nil, List.sum_nil, add_zero] at hg
  exact_mod_cast hg

theorem gauges_match_overlap : Matches ⟨Dict.empty.set [9] [3], 1, 1⟩ := by
  let w : World := ⟨Dict.empty.set [7] [1, 2], 1, 2⟩
  let both : World := ⟨w.store.set [9] [3], 1, 2⟩
  let left : World := ⟨Dict.empty.set [9] [3], 1, 2⟩
  let content : Bytes → Bytes := fun cid => if cid = [7] then [1, 2] else [3]
  have hstore : OnlyContent content w.store := by
    intro cid data hget
    simp only [w, Dict.get?_set, Dict.get?_empty] at hget
    split_ifs at hget with hcid
    rw [← Option.some.inj hget, hcid]
    rfl
  let R : Sys → Event → Sys → Prop := fun s e s' =>
    step true s e = some s' ∧ SameBytes content e ∧ Undisturbed true s e
  have hrun {s s' : Sys} {t : Task} (i : ℕ) (he : step true s (.run i) = some s') (hs : s.tasks[i]? = some t)
      (ht : StillTrue true s.world t) : R s (.run i) s' := by
    refine ⟨he, trivial, fun t' ht' => ?_⟩
    rw [hs] at ht'
    exact Option.some.inj ht' ▸ ht
  have hdelete : R ⟨w, []⟩ (.begin (.deleteBlock [7])) ⟨w, [.deleteChecks [7]]⟩ := ⟨rfl, trivial, trivial⟩
  have hput : R ⟨w, [.deleteChecks [7]]⟩ (.begin (.putBlock [9] [3]))
      ⟨w, [.deleteChecks [7], .putChecks [9] [3]]⟩ := ⟨rfl, rfl, trivial⟩
  have hfound : R ⟨w, [.deleteChecks [7], .putChecks [9] [3]]⟩ (.run 0)
      ⟨w, [.deleteSizes [7], .putChecks [9] [3]]⟩ := hrun 0 rfl rfl trivial
  have hnew : R ⟨w, [.deleteSizes [7], .putChecks [9] [3]]⟩ (.run 1)
      ⟨w, [.deleteSizes [7], .putStores [9] [3] true]⟩ := hrun 1 rfl rfl trivial
  have hstored : R ⟨w, [.deleteSizes [7], .putStores [9] [3] true]⟩ (.run 1)
      ⟨both, [.deleteSizes [7], .putCounts [3] true]⟩ := hrun 1 rfl rfl rfl
  have hsize : R ⟨both, [.deleteSizes [7], .putCounts [3] true]⟩ (.run 0)
      ⟨both, [.deleteErases [7] 2, .putCounts [3] true]⟩ := hrun 0 rfl rfl trivial
  have herase : R ⟨both, [.deleteErases [7] 2, .putCounts [3] true]⟩ (.run 0)
      ⟨left, [.deleteCounts 2, .putCounts [3] true]⟩ := hrun 0 rfl rfl ⟨[1, 2], rfl, rfl⟩
  have hdec : R ⟨left, [.deleteCounts 2, .putCounts [3] true]⟩ (.run 0)
      ⟨⟨Dict.empty.set [9] [3], 0, 0⟩, [.putCounts [3] true]⟩ := hrun 0 rfl rfl ⟨by decide, by decide⟩
  have hinc : R ⟨⟨Dict.empty.set [9] [3], 0, 0⟩, [.putCounts [3] true]⟩ (.run 0)
      ⟨⟨Dict.empty.set [9] [3], 1, 1⟩, []⟩ := hrun 0 rfl rfl trivial
  exact gauges_match hstore ⟨rfl, rfl⟩ (.head hdelete (.head hput (.head hfound (.head hnew (.head hstored
    (.head hsize (.head herase (.head hdec (.single hinc))))))))) rfl

theorem gauges_match_fails :
    ¬∀ (hasPutMany : Bool) (content : Bytes → Bytes) (w : World) (events : List Event) (s : Sys),
      OnlyContent content w.store → Matches w →
        Run (fun s e s' => step hasPutMany s e = some s' ∧ SameBytes content e) ⟨w, []⟩ events s →
          s.tasks = [] → Matches s.world := by
  intro h
  let events : List Event :=
    [.begin (.putMany [([7], [1]), ([7], [1])]), .run 0, .run 0, .run 0, .run 0, .run 0]
  have hrun := run_stateAfter (step true) ⟨⟨.empty, 0, 0⟩, []⟩ events (by decide)
  have hsame : ∀ e ∈ events, SameBytes (fun _ => [1]) e := by
    simp [events, SameBytes]
  have hmatch := h true _ ⟨.empty, 0, 0⟩ events _ (fun cid data hget => by simp at hget) ⟨rfl, rfl⟩
    (hrun.restrict hsame) (by decide)
  revert hmatch
  unfold Matches
  decide

end IpfsLite.MetricsBlockStore
