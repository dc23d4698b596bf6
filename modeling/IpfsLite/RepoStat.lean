import IpfsLite.BlockApiLinear

/-!
`repo/stat` while other requests put and remove blocks. It lists the keys at one moment and asks for the size
of each block at another.
-/

namespace IpfsLite.BlockApi

open Function Runs
open MetricsBlockStore (Task OnlyContent)

section Holds

variable {κ : Type*} [DecidableEq κ]

def PutsContent (lib : BlockLib) (content : Bytes → Bytes) : Event κ → Prop
  | .request _ (.blockPut data) => data = content (lib.computeCidV1 data)
  | _ => True

def Pc.blocks : Pc → List MetricsBlockStore.Block
  | .storing task => task.blocks
  | _ => []

structure Holds (content : Bytes → Bytes) (s : State κ) : Prop where
  store : OnlyContent content s.world.store
  tasks : ∀ k req pc, s.reqs k = .active req pc → ∀ b ∈ pc.blocks, b.2 = content b.1

variable {lib : BlockLib} {config : Config} {content : Bytes → Bytes} {s s' : State κ} {e : Event κ} {k : κ}
  {req : Request} {pc pc' : Pc} {w : MetricsBlockStore.World}

omit [DecidableEq κ] in
theorem start_blocks (h : PutsContent lib content (.request k req)) :
    ∀ b ∈ (start lib req).blocks, b.2 = content b.1 := by
  intro b hb
  cases req with
  | blockPut data =>
    obtain rfl := List.mem_singleton.mp hb
    exact h
  | blockStat arg | blockGet arg =>
    simp only [start] at hb
    split at hb <;> exact absurd hb List.not_mem_nil
  | blockRm arg =>
    simp only [start] at hb
    split at hb <;> exact absurd hb List.not_mem_nil
  | refsLocal => exact absurd hb List.not_mem_nil

omit [DecidableEq κ] in
theorem runPc_holds (hstore : OnlyContent content s.world.store) (hpc : ∀ b ∈ pc.blocks, b.2 = content b.1)
    (h : runPc lib req s.world pc = some (w, pc')) :
    OnlyContent content w.store ∧ ∀ b ∈ pc'.blocks, b.2 = content b.1 := by
  cases pc with
  | storing task =>
    obtain ⟨hw, htask⟩ := MetricsBlockStore.advance_holds false hstore hpc
    simp only [runPc] at h
    split at h
    · rename_i task' hadvance
      obtain ⟨rfl, rfl⟩ := Prod.mk.inj (Option.some.inj h)
      rw [hadvance] at hw htask
      exact ⟨hw, htask task' rfl⟩
    · rename_i hadvance
      obtain ⟨rfl, rfl⟩ := Prod.mk.inj (Option.some.inj h)
      rw [hadvance] at hw
      exact ⟨hw, fun b hb => absurd hb List.not_mem_nil⟩
  | answering r => contradiction
  | _ =>
    obtain ⟨rfl, rfl⟩ := Prod.mk.inj (Option.some.inj h)
    exact ⟨hstore, fun b hb => absurd hb List.not_mem_nil⟩

theorem failPc_blocks (h : failPc pc = some pc') : pc'.blocks = [] := by
  cases pc with
  | storing task =>
    cases task with
    | putCounts | deleteCounts => contradiction
    | _ =>
      obtain rfl := Option.some.inj h
      rfl
  | answering r => contradiction
  | _ =>
    obtain rfl := Option.some.inj h
    rfl

theorem Holds.set (hs : Holds content s) {r : ReqState} (hstore : OnlyContent content w.store)
    (hr : ∀ req pc, r = .active req pc → ∀ b ∈ pc.blocks, b.2 = content b.1) :
    Holds content { s.setReq k r with world := w } := by
  refine ⟨hstore, fun k' req pc hpc => ?_⟩
  by_cases hk : k' = k
  · subst hk
    exact hr req pc (by simpa [State.setReq] using hpc)
  · exact hs.tasks k' req pc (by simpa [State.setReq, hk] using hpc)

theorem Holds.step (hs : Holds content s) (h : State.Next lib config s e s') (hputs : PutsContent lib content e) :
    Holds content s' := by
  unfold State.Next at h
  cases e with
  | request k req =>
    simp only [State.step] at h
    split at h
    · obtain rfl := Option.some.inj h
      refine hs.set hs.store fun req' pc hr => ?_
      obtain ⟨rfl, rfl⟩ := ReqState.active.inj hr
      exact start_blocks hputs
    · contradiction
  | run k =>
    simp only [State.step] at h
    split at h
    · rename_i req pc hactive
      obtain ⟨⟨w, pc'⟩, hpc, rfl⟩ := Option.map_eq_some_iff.mp h
      obtain ⟨hstore, hblocks⟩ := runPc_holds hs.store (hs.tasks k req pc hactive) hpc
      refine hs.set hstore fun req' pc'' hr => ?_
      obtain ⟨rfl, rfl⟩ := ReqState.active.inj hr
      exact hblocks
    · contradiction
  | fail k =>
    simp only [State.step] at h
    split at h
    · obtain ⟨pc', hpc, rfl⟩ := Option.map_eq_some_iff.mp h
      refine hs.set hs.store fun req' pc'' hr b hb => ?_
      obtain ⟨rfl, rfl⟩ := ReqState.active.inj hr
      rw [failPc_blocks hpc] at hb
      exact absurd hb List.not_mem_nil
    · contradiction
  | respond k r =>
    simp only [State.step] at h
    split at h
    · split_ifs at h
      obtain rfl := Option.some.inj h
      exact hs.set hs.store fun req' pc hr => by contradiction
    · contradiction
  | statRequest k =>
    simp only [State.step] at h
    split at h
    · obtain rfl := Option.some.inj h
      exact ⟨hs.store, hs.tasks⟩
    · contradiction
  | statRun k =>
    simp only [State.step] at h
    split at h
    · obtain ⟨pc', -, rfl⟩ := Option.map_eq_some_iff.mp h
      exact ⟨hs.store, hs.tasks⟩
    · contradiction
  | statFail k =>
    simp only [State.step] at h
    split at h
    · obtain ⟨pc', -, rfl⟩ := Option.map_eq_some_iff.mp h
      exact ⟨hs.store, hs.tasks⟩
    · contradiction
  | statRespond k r =>
    simp only [State.step] at h
    split at h
    · split_ifs at h
      obtain rfl := Option.some.inj h
      exact ⟨hs.store, hs.tasks⟩
    · contradiction

end Holds

section Tally

variable {lib : BlockLib} {config : Config} {content : Bytes → Bytes} {w : MetricsBlockStore.World}
  {K : List Bytes} {exact : Prop}
  {pc pc' : StatPc}

def contentSize (content : Bytes → Bytes) (cids : List Bytes) : ℕ := (cids.map fun c => (content c).length).sum

/-- `size` has been added up for these CIDs. It is less than the size of their blocks where some were missing. -/
def Adds (content : Bytes → Bytes) (exact : Prop) (cids : List Bytes) (size : ℕ) : Prop :=
  size ≤ contentSize content cids ∧ (exact → size = contentSize content cids)

def Tallies (lib : BlockLib) (config : Config) (content : Bytes → Bytes) (K : List Bytes) (exact : Prop) :
    StatPc → Prop
  | .listing => False
  | .sizing n size cid keys => n = K.length ∧ ∃ sized rest, K = sized ++ cid :: rest ∧ allKeys lib rest = .ok keys ∧
      Adds content exact sized size
  | .answering r => r = genericExceptionHandler ∨
      ∃ size, r = ⟨200, .repoStat K.length size (repoPath config) "1"⟩ ∧ Adds content exact K size

theorem Tallies.mono {exact' : Prop} (h : Tallies lib config content K exact pc) (himp : exact' → exact) :
    Tallies lib config content K exact' pc := by
  cases pc with
  | listing => exact h
  | sizing n size cid keys =>
    obtain ⟨hn, sized, rest, hK, hkeys, hle, heq⟩ := h
    exact ⟨hn, sized, rest, hK, hkeys, hle, heq ∘ himp⟩
  | answering r => exact h.imp_right fun ⟨size, hr, hle, heq⟩ => ⟨size, hr, hle, heq ∘ himp⟩

theorem contentSize_snoc (sized : List Bytes) (cid : Bytes) :
    contentSize content (sized ++ [cid]) = contentSize content sized + (content cid).length := by
  simp [contentSize]

theorem contentSize_keys (hstore : OnlyContent content w.store) :
    contentSize content w.store.keys = w.store.sumBy List.length := by
  unfold contentSize Dict.sumBy Dict.keys
  rw [List.map_map]
  congr 1
  refine List.map_congr_left fun b hb => ?_
  exact congrArg List.length (hstore b.1 b.2 (Dict.get?_eq_some.mpr hb)).symm

theorem nextSize_tallies (hround : ∀ c x, (lib.parseCidBytes c).map lib.formatCidForDisplay = .ok x →
      (lib.parseCid x).map lib.cidToBytes = .ok c) {sized rest : List Bytes} {keys : List String} {size : ℕ}
    (hK : K = sized ++ rest) (hkeys : allKeys lib rest = .ok keys) (hadds : Adds content exact sized size) :
    Tallies lib config content K exact (nextSize lib config K.length size keys) := by
  cases rest with
  | nil =>
    obtain rfl : [] = keys := Except.ok.inj hkeys
    rw [List.append_nil] at hK
    exact .inr ⟨size, rfl, hK ▸ hadds⟩
  | cons c rest =>
    rw [allKeys, List.mapM_cons] at hkeys
    obtain ⟨x, hx, hkeys⟩ := bind_ok.mp hkeys
    obtain ⟨xs, hxs, hkeys⟩ := bind_ok.mp hkeys
    obtain rfl : x :: xs = keys := Except.ok.inj hkeys
    obtain ⟨cid, hcid, rfl⟩ := map_ok.mp (hround c x hx)
    simp only [nextSize, hcid]
    exact ⟨rfl, sized, rest, hK, hxs, hadds⟩

theorem adds_size (hstore : OnlyContent content w.store) {sized : List Bytes} {cid : Bytes} {size : ℕ}
    (hhas : exact → cid ∈ w.store.keys) (hadds : Adds content exact sized size) :
    Adds content exact (sized ++ [cid]) (size + w.size cid) := by
  obtain ⟨hle, heq⟩ := hadds
  rw [Adds, contentSize_snoc]
  unfold MetricsBlockStore.World.size
  cases hget : w.store.get? cid with
  | none =>
    refine ⟨by simp only [Option.map_none, Option.getD_none]; omega, fun h => ?_⟩
    exact absurd (hhas h) (Dict.get?_eq_none.mp hget)
  | some data =>
    rw [hstore cid data hget]
    refine ⟨by simp only [Option.map_some, Option.getD_some]; omega, fun h => ?_⟩
    rw [heq h]
    rfl

theorem runStat_tallies (hround : ∀ c x, (lib.parseCidBytes c).map lib.formatCidForDisplay = .ok x →
      (lib.parseCid x).map lib.cidToBytes = .ok c) (hstore : OnlyContent content w.store)
    (hhas : exact → ∀ c ∈ K, c ∈ w.store.keys) (h : runStat lib config w pc = some pc')
    (hpc : Tallies lib config content K exact pc) : Tallies lib config content K exact pc' := by
  cases pc with
  | listing => exact hpc.elim
  | sizing n size cid keys =>
    obtain rfl := Option.some.inj h
    obtain ⟨rfl, sized, rest, hK, hkeys, hadds⟩ := hpc
    have hmem : cid ∈ K := by simp [hK]
    exact nextSize_tallies hround (by simp [hK]) hkeys (adds_size hstore (fun he => hhas he cid hmem) hadds)
  | answering r => contradiction

theorem allKeys_length {cids : List Bytes} {keys : List String} (h : allKeys lib cids = .ok keys) :
    keys.length = cids.length := by
  induction cids generalizing keys with
  | nil =>
    obtain rfl : [] = keys := Except.ok.inj h
    rfl
  | cons c cids ih =>
    rw [allKeys, List.mapM_cons] at h
    obtain ⟨x, -, h⟩ := bind_ok.mp h
    obtain ⟨xs, hxs, h⟩ := bind_ok.mp h
    obtain rfl : x :: xs = keys := Except.ok.inj h
    rw [List.length_cons, List.length_cons, ih hxs]

theorem listing_tallies (hround : ∀ c x, (lib.parseCidBytes c).map lib.formatCidForDisplay = .ok x →
      (lib.parseCid x).map lib.cidToBytes = .ok c) (h : runStat lib config w .listing = some pc) :
    Tallies lib config content w.store.keys exact pc := by
  simp only [runStat] at h
  split at h
  · obtain rfl := Option.some.inj h
    exact .inl rfl
  · rename_i keys hkeys
    obtain rfl := Option.some.inj h
    rw [allKeys_length hkeys]
    exact nextSize_tallies hround (List.nil_append _).symm hkeys ⟨le_rfl, fun _ => rfl⟩

end Tally

section Runs

variable {κ : Type*} [DecidableEq κ] {lib : BlockLib} {config : Config} {content : Bytes → Bytes}
  {s s' u : State κ} {e : Event κ} {es : List (Event κ)} {k : κ} {K : List Bytes} {exact : Prop} {pc pc' : StatPc}

def Missed (lib : BlockLib) (config : Config) (s : State κ) (K : List Bytes) (es : List (Event κ)) : Prop :=
  ∃ es₁ es₂ u, es = es₁ ++ es₂ ∧ Run (State.Next lib config) s es₁ u ∧ ∃ c ∈ K, c ∉ u.world.store.keys

theorem Missed.snoc (h : Missed lib config s K es) (e : Event κ) : Missed lib config s K (es ++ [e]) := by
  obtain ⟨es₁, es₂, u, rfl, hrun, hc⟩ := h
  exact ⟨es₁, es₂ ++ [e], u, List.append_assoc .., hrun, hc⟩

def StatTallies (lib : BlockLib) (config : Config) (content : Bytes → Bytes) (K : List Bytes) (exact : Prop) :
    StatState → Prop
  | .idle => False
  | .active pc => Tallies lib config content K exact pc
  | .answered => True

theorem StatTallies.mono {exact' : Prop} {st : StatState} (h : StatTallies lib config content K exact st)
    (himp : exact' → exact) : StatTallies lib config content K exact' st := by
  cases st with
  | idle => exact h
  | active pc => exact Tallies.mono h himp
  | answered => trivial

theorem StatTallies.step (hround : ∀ c x, (lib.parseCidBytes c).map lib.formatCidForDisplay = .ok x →
      (lib.parseCid x).map lib.cidToBytes = .ok c) (hstore : OnlyContent content s.world.store)
    (hhas : exact → ∀ c ∈ K, c ∈ s.world.store.keys) (h : State.Next lib config s e s')
    (hstat : StatTallies lib config content K exact (s.stats k)) :
    StatTallies lib config content K exact (s'.stats k) := by
  unfold State.Next at h
  have hset {k' : κ} {r : StatState} (hr : k = k' → StatTallies lib config content K exact r) :
      StatTallies lib config content K exact ((s.setStat k' r).stats k) := by
    by_cases hk : k = k'
    · subst hk
      simpa [State.setStat] using hr rfl
    · simpa [State.setStat, hk] using hstat
  cases e with
  | request k' req =>
    simp only [State.step] at h
    split at h
    · obtain rfl := Option.some.inj h
      exact hstat
    · contradiction
  | run k' =>
    simp only [State.step] at h
    split at h
    · obtain ⟨p, -, rfl⟩ := Option.map_eq_some_iff.mp h
      exact hstat
    · contradiction
  | fail k' =>
    simp only [State.step] at h
    split at h
    · obtain ⟨p, -, rfl⟩ := Option.map_eq_some_iff.mp h
      exact hstat
    · contradiction
  | respond k' r =>
    simp only [State.step] at h
    split at h
    · split_ifs at h
      obtain rfl := Option.some.inj h
      exact hstat
    · contradiction
  | statRequest k' =>
    simp only [State.step] at h
    split at h
    · rename_i hidle
      obtain rfl := Option.some.inj h
      refine hset fun hk => ?_
      rw [hk, hidle] at hstat
      exact hstat.elim
    · contradiction
  | statRun k' =>
    simp only [State.step] at h
    split at h
    · rename_i pc hactive
      obtain ⟨pc', hpc, rfl⟩ := Option.map_eq_some_iff.mp h
      refine hset fun hk => ?_
      rw [hk, hactive] at hstat
      exact runStat_tallies hround hstore hhas hpc hstat
    · contradiction
  | statFail k' =>
    simp only [State.step] at h
    split at h
    · rename_i pc hactive
      obtain ⟨pc', hpc, rfl⟩ := Option.map_eq_some_iff.mp h
      refine hset fun hk => ?_
      cases pc with
      | answering r => contradiction
      | _ =>
        obtain rfl := Option.some.inj hpc
        exact .inl rfl
    · contradiction
  | statRespond k' r =>
    simp only [State.step] at h
    split at h
    · split_ifs at h
      obtain rfl := Option.some.inj h
      exact hset fun _ => trivial
    · contradiction

theorem repoStat_answers (lib : BlockLib) (hround : ∀ c x, (lib.parseCidBytes c).map lib.formatCidForDisplay = .ok x →
      (lib.parseCid x).map lib.cidToBytes = .ok c) (config : Config) (content : Bytes → Bytes)
    (w : MetricsBlockStore.World) (hstore : OnlyContent content w.store) (before es : List (Event κ)) (s s₁ s' : State κ) (k : κ)
    (hbefore : Run (State.Next lib config) (.initial w) before s) (hlisting : s.stats k = .active .listing)
    (hlists : State.Next lib config s (.statRun k) s₁) (hrun : Run (State.Next lib config) s₁ es s')
    (hputs : ∀ e ∈ before ++ es, PutsContent lib content e) (n size : ℕ) (path version : String)
    (hanswer : s'.stats k = .active (.answering ⟨200, .repoStat n size path version⟩)) :
    n = s.world.store.keys.length ∧ size ≤ s.world.store.sumBy List.length ∧
      (size ≠ s.world.store.sumBy List.length → Missed lib config s₁ s.world.store.keys es) := by
  have hholds : Holds content s := by
    apply (hbefore.restrict fun e he => hputs e (List.mem_append_left _ he)).invariant
      (fun u e v hu hstep => hu.step hstep.1 hstep.2)
    exact ⟨hstore, fun k req pc hpc => by contradiction⟩
  have hfirst : Holds content s₁ := hholds.step hlists trivial
  have hlisted : StatTallies lib config content s.world.store.keys (¬Missed lib config s₁ s.world.store.keys [])
      (s₁.stats k) := by
    simp only [State.Next, State.step, hlisting] at hlists
    obtain ⟨pc', hpc, rfl⟩ := Option.map_eq_some_iff.mp hlists
    simp only [State.setStat, update_self]
    exact listing_tallies hround hpc
  have hsafe := hrun.restrict fun e he => hputs e (List.mem_append_right _ he)
  have hend := hsafe.history (P := fun as u => Run (State.Next lib config) s₁ as u ∧ Holds content u ∧
    StatTallies lib config content s.world.store.keys (¬Missed lib config s₁ s.world.store.keys as) (u.stats k)) ?_
    ⟨.refl, hfirst, hlisted⟩
  · obtain ⟨-, -, hstat⟩ := hend
    rw [hanswer] at hstat
    rcases hstat with hraised | ⟨size', hr, hle, heq⟩
    · have hstatus : 200 = 500 := congrArg Response.status hraised
      contradiction
    · obtain ⟨rfl, rfl, -⟩ := Body.repoStat.inj (congrArg Response.body hr)
      rw [contentSize_keys hholds.store] at hle heq
      exact ⟨rfl, hle, fun hne => not_not.mp fun hmissed => hne (heq hmissed)⟩
  · rintro as u e v ⟨hrun, hu, hstat⟩ ⟨hstep, hput⟩
    refine ⟨hrun.tail hstep, hu.step hstep hput, ?_⟩
    refine StatTallies.step hround hu.store (fun hmissed c hc => ?_) hstep
      (hstat.mono fun hmissed hearlier => hmissed (hearlier.snoc e))
    by_contra hgone
    exact hmissed ⟨as, [e], u, rfl, hrun, c, hc, hgone⟩

def twoBlocks : MetricsBlockStore.World :=
  ⟨(Dict.empty.set KnownCid.rawA.bytes [97]).set KnownCid.rawB.bytes [98], 2, 2⟩

def removeDuringStat : List (Event Bool) :=
  [.request false (.blockRm KnownCid.rawA.str), .run false, .run false, .run false, .statRun true, .statRun true]

theorem repoStat_answers_removed : ∃ s₁ : State Bool,
    Missed rawALib inMemory s₁ [KnownCid.rawA.bytes, KnownCid.rawB.bytes] removeDuringStat := by
  let next : State Bool → Event Bool → Option (State Bool) := State.step rawALib inMemory
  let s := stateAfter next (.initial twoBlocks) [.statRequest true] (by decide)
  let s₁ := stateAfter next s [.statRun true] (by decide)
  let s' := stateAfter next s₁ removeDuringStat (by decide)
  have hround (c : Bytes) (x : String)
      (h : (rawALib.parseCidBytes c).map rawALib.formatCidForDisplay = .ok x) :
      (rawALib.parseCid x).map rawALib.cidToBytes = .ok c := by
    obtain ⟨row, hrow, rfl⟩ := map_ok.mp h
    obtain ⟨hmem, rfl⟩ := ofTable_parseCidBytes hrow
    rcases List.mem_pair.mp hmem with rfl | rfl <;> rfl
  have hstore : OnlyContent (fun c => if c = KnownCid.rawA.bytes then [97] else [98]) twoBlocks.store := by
    intro cid data hget
    have hentry := Dict.get?_eq_some.mp hget
    rcases List.mem_pair.mp hentry with h | h
    · obtain ⟨rfl, rfl⟩ := Prod.mk.inj h
      rfl
    · obtain ⟨rfl, rfl⟩ := Prod.mk.inj h
      rfl
  have hanswer : s'.stats true = .active (.answering ⟨200, .repoStat 2 1 "" "1"⟩) := rfl
  exact ⟨s₁, (repoStat_answers rawALib hround inMemory _ twoBlocks hstore [.statRequest true] removeDuringStat s s₁ s'
    true (run_stateAfter _ _ _ _) rfl rfl (run_stateAfter _ _ _ _) (by simp [removeDuringStat, PutsContent]) 2 1 "" "1"
    hanswer).2.2 (by decide)⟩

end Runs

end IpfsLite.BlockApi
