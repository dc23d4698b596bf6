import IpfsLite.GcSystem

namespace IpfsLite

open Gc

namespace Gc

variable {lib : DagLib}

theorem nextPin_holdsLock (allCids : List String) (copied : PinMap) (pins : List (String × PinValue))
    (reachable : List String) : (nextPin lib allCids copied pins reachable).holdsLock = true := by
  induction pins generalizing reachable with
  | nil => rfl
  | cons pin pins ih =>
    simp only [nextPin]
    split
    · exact ih _
    · split
      · exact ih _
      · rfl

theorem resume_holdsLock (m : Marking) (read : Except PyError (Option Bytes)) :
    (m.resume lib read).holdsLock = true := by
  simp only [Marking.resume]
  split
  · exact nextPin_holdsLock ..
  · split
    · exact nextPin_holdsLock ..
    · rfl

end Gc

namespace Sys

variable {τ : Type*} [DecidableEq τ] {lib : DagLib} {fails : Option PyError} {s s' : Sys τ}

inductive GcMove (lib : DagLib) (fails : Option PyError) (s : Sys τ) : Sys τ → Prop
  | list {keys : List String} (hp : s.gc = .listing)
      (hkeys : (awaited fails s.store.keys).bind (fun cids => cids.mapM (display lib)) = .ok keys) :
      GcMove lib fails s { s with gc := .copying keys.dedup }
  | copy {allCids : List String} (hp : s.gc = .copying allCids) : GcMove lib fails s
      { s with gc := nextPin lib allCids s.world.store.pins s.world.store.pins.entries [] }
  | mark {m : Marking} (hp : s.gc = .marking m) :
      GcMove lib fails s { s with gc := m.resume lib (awaited fails (s.store.get? m.current)) }
  | delete {x : String} {cid : Bytes} {toDelete : List String} {deleted retained : ℕ}
      (hp : s.gc = .sweeping toDelete deleted retained) (hx : x ∈ toDelete) (hcid : pinRoot lib x = .ok cid) :
      GcMove lib fails s { s with
        store := s.store.erase cid, gc := .sweeping (toDelete.erase x) (deleted + 1) retained }
  | finish {l : RWLock.State (Option τ)} {deleted retained : ℕ} (hp : s.gc = .sweeping [] deleted retained)
      (hl : RWLock.step s.lock none .leave = some l) :
      GcMove lib fails s { s with lock := l, gc := .returned ⟨deleted, retained⟩ }
  | listRaises {l : RWLock.State (Option τ)} {e : PyError} (hp : s.gc = .listing)
      (herr : (awaited fails s.store.keys).bind (fun cids => cids.mapM (display lib)) = .error e)
      (hl : RWLock.step s.lock none .leave = some l) :
      GcMove lib fails s { s with lock := l, gc := .raised e }
  | deleteRaises {l : RWLock.State (Option τ)} {x : String} {e : PyError} {toDelete : List String}
      {deleted retained : ℕ} (hp : s.gc = .sweeping toDelete deleted retained) (hx : x ∈ toDelete)
      (herr : (pinRoot lib x).bind (awaited fails) = .error e)
      (hl : RWLock.step s.lock none .leave = some l) :
      GcMove lib fails s { s with lock := l, gc := .raised e }

theorem gcRun_move (h : s.gcRun lib fails = some s') : GcMove lib fails s s' := by
  simp only [gcRun] at h
  split at h
  · rename_i hp
    split at h
    · rename_i e herr
      obtain ⟨l, hl, rfl⟩ := Option.map_eq_some_iff.mp h
      exact .listRaises hp herr hl
    · rename_i keys hkeys
      obtain rfl := Option.some.inj h
      exact .list hp hkeys
  · rename_i hp
    obtain rfl := Option.some.inj h
    exact .copy hp
  · rename_i hp
    obtain rfl := Option.some.inj h
    exact .mark hp
  · rename_i hp
    obtain ⟨l, hl, rfl⟩ := Option.map_eq_some_iff.mp h
    exact .finish hp hl
  · contradiction

theorem awaited_ok {α : Type*} {a b : α} (h : awaited fails a = .ok b) : a = b := by
  cases fails with
  | none => exact Except.ok.inj h
  | some e => contradiction

theorem gcDelete_move {x : String} (h : s.gcDelete lib x fails = some s') : GcMove lib fails s s' := by
  simp only [gcDelete] at h
  split at h <;> try contradiction
  rename_i toDelete deleted retained hp
  split_ifs at h with hx
  split at h
  · rename_i e herr
    obtain ⟨l, hl, rfl⟩ := Option.map_eq_some_iff.mp h
    exact .deleteRaises hp hx herr hl
  · rename_i cid hcid
    obtain rfl := Option.some.inj h
    obtain ⟨cid', hroot, hawaited⟩ := bind_ok.mp hcid
    obtain rfl := awaited_ok hawaited
    exact .delete hp hx hroot

theorem gcLock_cases {a : RWLock.Act} (h : s.gcLock a = some s') :
    s.gc = .idle ∧ (a = .enterWrite ∨ a = .resume) ∧ ∃ l, RWLock.step s.lock none a = some l ∧
      (l.pc none = .writing ∧
          s' = { s with lock := l, gc := .listing, overlaps := fun t => (s.ops t).isRunning } ∨
        l.pc none ≠ .writing ∧ s' = { s with lock := l }) := by
  simp only [gcLock] at h
  split at h <;> try contradiction
  rename_i hp
  split_ifs at h with ha
  obtain ⟨l, hl, rfl⟩ := Option.map_eq_some_iff.mp h
  refine ⟨hp, ha, l, hl, ?_⟩
  split_ifs with hw
  · exact .inl ⟨hw, rfl⟩
  · exact .inr ⟨hw, rfl⟩

theorem GcMove.frame (h : GcMove lib fails s s') : s'.ops = s.ops ∧ s'.world = s.world := by
  cases h <;> exact ⟨rfl, rfl⟩

theorem gcLock_frame {a : RWLock.Act} (h : s.gcLock a = some s') :
    s'.ops = s.ops ∧ s'.world = s.world ∧ s'.store = s.store := by
  obtain ⟨-, -, l, -, ⟨-, rfl⟩ | ⟨-, rfl⟩⟩ := gcLock_cases h <;> exact ⟨rfl, rfl, rfl⟩

end Sys

end IpfsLite
