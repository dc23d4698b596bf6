import IpfsLite.GcSafety
import IpfsLite.GcSystem

namespace IpfsLite.Gc

open Worklist

variable {lib : DagLib} {store : Store}

def healthy : Reads := fun _ _ => none

def marks (lib : DagLib) (l : List Bytes) : List String := l.filterMap (fun c => (display lib c).toOption)

@[simp] theorem marks_nil : marks lib [] = [] := rfl

theorem marks_cons_ok {c : Bytes} {s : String} (h : display lib c = .ok s) (l : List Bytes) :
    marks lib (c :: l) = s :: marks lib l := by
  simp [marks, h, Except.toOption]

theorem marks_cons_error {c : Bytes} {e : PyError} (h : display lib c = .error e) (l : List Bytes) :
    marks lib (c :: l) = marks lib l := by
  simp [marks, h, Except.toOption]

def walkVisit (lib : DagLib) (store : Store) (c : Bytes) : Except PyError (List Bytes) :=
  (display lib c).bind fun _ => blockOrMissing lib false c (store.get? c)

theorem markVisit_recursive {pin : String × PinValue} (h : pin.2.isType "recursive" = true) :
    markVisit lib store healthy pin = walkVisit lib store := by
  funext c
  simp [markVisit, walkVisit, expand, h, getBlock, healthy, Except.bind]

theorem markVisit_direct {pin : String × PinValue} (h : pin.2.isType "recursive" = false) :
    markVisit lib store healthy pin = fun c => (display lib c).bind fun _ => .ok [] := by
  funext c
  simp [markVisit, expand, h]

def Pending (lib : DagLib) (store : Store) (c : Bytes) (u : Worklist Bytes) (l : List Bytes) : Prop :=
  match blockOrMissing lib false c (store.get? c) with
  | .error _ => l = []
  | .ok cs => Explored (walkVisit lib store) (u.push cs) l

theorem yieldNext_recursive {w : Worklist Bytes} {l : List Bytes}
    (h : Explored (walkVisit lib store) w l) :
    match yieldNext lib w true with
    | (mark, none) => marks lib l = mark.toList
    | (mark, some (c, u)) => ∃ l', marks lib l = mark.toList ++ marks lib l' ∧ Pending lib store c u l' := by
  cases h with
  | finished hp => simp [yieldNext, hp]
  | @raised _ u c e hp hc =>
    simp only [yieldNext, hp]
    cases hd : display lib c with
    | error e' => simp [marks_cons_error hd]
    | ok s =>
      have hb : blockOrMissing lib false c (store.get? c) = .error e := by
        simpa [walkVisit, hd, Except.bind] using hc
      exact ⟨[], by simp [marks_cons_ok hd], by simp [Pending, hb]⟩
  | @visited _ u c cs l hp hc hl =>
    obtain ⟨s, hd, hb⟩ := bind_ok.mp hc
    simp only [yieldNext, hp, hd]
    exact ⟨l, by simp [marks_cons_ok hd], by simpa [Pending, hb] using hl⟩

theorem yieldNext_direct {pin : String × PinValue} {root : Bytes} {l : List Bytes}
    (hpin : pin.2.isType "recursive" = false)
    (h : Explored (markVisit lib store healthy pin) (start root) l) :
    yieldNext lib (start root) false = ((marks lib l).head?, none) ∧ (marks lib l).length ≤ 1 := by
  rw [markVisit_direct hpin] at h
  cases h with
  | finished hp => simp [pop_start] at hp
  | @raised _ u c e hp hc =>
    obtain ⟨rfl, rfl⟩ : root = c ∧ (⟨[], [root]⟩ : Worklist Bytes) = u := by simpa [pop_start] using hp
    cases hd : display lib root with
    | error e' => simp [yieldNext, pop_start, hd, marks_cons_error hd]
    | ok s => simp [hd, Except.bind] at hc
  | @visited _ u c cs l hp hc hl =>
    obtain ⟨rfl, rfl⟩ : root = c ∧ (⟨[], [root]⟩ : Worklist Bytes) = u := by simpa [pop_start] using hp
    obtain ⟨s, hd, hcs⟩ := bind_ok.mp hc
    obtain rfl : [] = cs := Except.ok.inj hcs
    obtain rfl : l = [] := by
      cases hl with
      | finished => rfl
      | raised hp => simp [pop, push] at hp
      | visited hp => simp [pop, push] at hp
    simp [yieldNext, pop_start, hd, marks_cons_ok hd]

theorem markWalk_explored (lib : DagLib) (store : Store) (pin : String × PinValue) (root : Bytes) :
    Explored (markVisit lib store healthy pin) (start root) (markWalk lib store healthy pin root) :=
  run_explored (walk_fed root fun _ _ => markVisit_stored)

def MarksTo (lib : DagLib) (store : Store) (allCids : List String) (copied : PinMap)
    (target : String → Prop) : Phase → Prop
  | .marking m => m.allCids = allCids ∧ m.copied = copied ∧ ∃ l, Pending lib store m.current m.walk l ∧
      ∀ s, s ∈ m.reachable ++ marks lib l ++ m.pinsLeft.flatMap (markPin lib store healthy) ↔ target s
  | .sweeping toDelete deleted _ => deleted = 0 ∧ ∃ reachable : List String,
      toDelete = allCids.filter (· ∉ reachable) ∧ ∀ s, s ∈ reachable ↔ target s
  | _ => False

variable {allCids : List String} {copied : PinMap} {target : String → Prop}

theorem toList_head? {α : Type} {l : List α} (h : l.length ≤ 1) : l.head?.toList = l := by
  cases l with
  | nil => rfl
  | cons x l =>
    have hnil : l = [] := List.length_eq_zero_iff.mp (Nat.le_zero.mp (Nat.le_of_succ_le_succ h))
    rw [hnil]
    rfl

theorem marksTo_nextPin {pins : List (String × PinValue)} {reachable : List String}
    (h : ∀ s, s ∈ reachable ++ pins.flatMap (markPin lib store healthy) ↔ target s) :
    MarksTo lib store allCids copied target (nextPin lib allCids copied pins reachable) := by
  induction pins generalizing reachable with
  | nil => exact ⟨rfl, reachable, rfl, by simpa using h⟩
  | cons pin pins ih =>
    simp only [nextPin]
    cases hroot : pinRoot lib pin.1 with
    | error e => exact ih (by simpa [markPin, hroot] using h)
    | ok root =>
      have hpin : markPin lib store healthy pin = marks lib (markWalk lib store healthy pin root) := by
        simp [markPin, hroot, marks]
      have hwalk := markWalk_explored lib store pin root
      rw [List.flatMap_cons, hpin] at h
      generalize markWalk lib store healthy pin root = l at h hwalk
      cases hrec : pin.2.isType "recursive" with
      | false =>
        obtain ⟨hy, hlen⟩ := yieldNext_direct hrec hwalk
        have hhead := toList_head? hlen
        simp only [hy]
        exact ih (by simpa [hhead] using h)
      | true =>
        rw [markVisit_recursive hrec] at hwalk
        have hy := yieldNext_recursive hwalk
        dsimp only
        split
        · rename_i mark hn
          rw [hn] at hy
          exact ih (by simpa [hy] using h)
        · rename_i mark c u hn
          rw [hn] at hy
          obtain ⟨l', hl', hpend⟩ := hy
          exact ⟨rfl, rfl, l', hpend, by simpa [hl'] using h⟩

theorem marksTo_resume {m : Marking} (h : MarksTo lib store allCids copied target (.marking m)) :
    MarksTo lib store allCids copied target (m.resume lib (.ok (store.get? m.current))) := by
  obtain ⟨rfl, rfl, l, hpend, h⟩ := h
  simp only [Marking.resume, Except.bind]
  simp only [Pending] at hpend
  cases hb : blockOrMissing lib false m.current (store.get? m.current) with
  | error e =>
    rw [hb] at hpend
    obtain rfl : l = [] := hpend
    exact marksTo_nextPin (by simpa using h)
  | ok cs =>
    rw [hb] at hpend
    have hy := yieldNext_recursive (w := m.walk.push cs) (l := l) hpend
    simp only
    split
    · rename_i mark hn
      rw [hn] at hy
      exact marksTo_nextPin (by simpa [hy] using h)
    · rename_i mark c u hn
      rw [hn] at hy
      obtain ⟨l', hl', hpend'⟩ := hy
      exact ⟨rfl, rfl, l', hpend', by simpa [hl'] using h⟩

end IpfsLite.Gc
