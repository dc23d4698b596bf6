import IpfsLite.FetchAffinity
import IpfsLite.FileContent
import IpfsLite.Lib.Runs

/-!
The `_FetchAffinity` of each of several fetches at once, which share the `_last_good_peer` of their peer.
The segments of the fetches between two awaits come in any order.
-/

namespace IpfsLite.FetchHints

open Runs Files

variable {σ : Type}

inductive Request
  | block
  | batch
deriving DecidableEq

structure FetchAffinity where
  lastGoodPeer : Option Bytes
  asked : Option (Request × Option Bytes)
deriving DecidableEq

structure Affinities where
  lastGoodPeer : Option Bytes
  fetches : List FetchAffinity
deriving DecidableEq

inductive Event
  | begins (providerAddr : String)
  | asks (i : ℕ) (request : Request) (peerId : Option Bytes)
  | answers (i : ℕ) (result : Except PyError (Option Bytes))

def Event.providers (host : Host σ) : Event → List (Option Bytes)
  | .begins providerAddr => [host.provider providerAddr]
  | .asks .. | .answers .. => []

def providers (host : Host σ) (events : List Event) : List (Option Bytes) := events.flatMap (Event.providers host)

namespace Affinities

def initial : Affinities := ⟨none, []⟩

def hints (s : Affinities) : List (Option Bytes) := s.fetches.map FetchAffinity.lastGoodPeer

def record (s : Affinities) (i : ℕ) (a : FetchAffinity) : Option Bytes → Affinities
  | none => { s with fetches := s.fetches.set i { a with asked := none } }
  | some peerId => ⟨some peerId, s.fetches.set i ⟨some peerId, none⟩⟩

def receive (s : Affinities) (i : ℕ) (a : FetchAffinity) : Reply → Affinities
  | .plain _ => s.record i a none
  | .withPeer _ peerId => s.record i a peerId

variable (host : Host σ)

def step (s : Affinities) : Event → Option Affinities
  | .begins providerAddr =>
    let hint := host.seed s.lastGoodPeer providerAddr
    some ⟨hint, s.fetches ++ [⟨hint, none⟩]⟩
  | .asks i request peerId =>
    s.fetches[i]?.bind fun a =>
      if a.asked = none ∧ a.lastGoodPeer = peerId then
        some { s with fetches := s.fetches.set i { a with asked := some (request, peerId) } }
      else none
  | .answers i result =>
    s.fetches[i]?.bind fun a =>
      match a.asked, result with
      | none, _ => none
      | some (.batch, _), _ | some (.block, _), .error _ => some (s.record i a none)
      | some (.block, peerId), .ok data => some (s.receive i a (ExchangeAdapter.reply true data peerId))

/-- Where the hints come from: the addresses that were given, and nothing that a peer has answered. -/
structure Hinted (events : List Event) (s : Affinities) : Prop where
  fetches : s.hints.length = (providers host events).length
  asked : ∀ (i : ℕ) request peerId, .asks i request peerId ∈ events → s.hints[i]? = some peerId
  own : ∀ (i : ℕ) p, (providers host events)[i]? = some (some p) → s.hints[i]? = some (some p)
  earlier : ∀ (i : ℕ) p, s.hints[i]? = some (some p) → ∃ j ≤ i, (providers host events)[j]? = some (some p)
  kept : ∀ (i j : ℕ) p, j ≤ i → (providers host events)[j]? = some (some p) → s.hints[i]? ≠ some none
  last : ∀ p, s.lastGoodPeer = some p → some p ∈ providers host events
  lost : s.lastGoodPeer = none → ∀ p, some p ∉ providers host events

def Asking (s : Affinities) : Prop := ∀ a ∈ s.fetches, ∀ request peerId, a.asked = some (request, peerId) →
  peerId = a.lastGoodPeer

variable {host} {s u : Affinities} {events : List Event} {e : Event} {i : ℕ} {a a' : FetchAffinity}

theorem hints_set (ha : s.fetches[i]? = some a) (h : a'.lastGoodPeer = a.lastGoodPeer) :
    (s.fetches.set i a').map FetchAffinity.lastGoodPeer = s.hints := by
  refine List.ext_getElem? fun j => ?_
  rw [hints, List.getElem?_map, List.getElem?_map, List.getElem?_set]
  split_ifs with hij hlt
  · subst hij
    rw [ha, Option.map_some, Option.map_some, h]
  · subst hij
    rw [List.getElem?_eq_none (Nat.le_of_not_lt hlt)]
  · rfl

theorem asking_set (hs : Asking s) (ha : ∀ request peerId, a'.asked = some (request, peerId) →
    peerId = a'.lastGoodPeer) : Asking { s with fetches := s.fetches.set i a' } := by
  intro b hb
  rcases List.mem_or_eq_of_mem_set hb with hb | rfl
  · exact hs b hb
  · exact ha

theorem record_hints (ha : s.fetches[i]? = some a) {peerId : Option Bytes}
    (h : ∀ p, peerId = some p → p ∈ a.lastGoodPeer) : (s.record i a peerId).hints = s.hints := by
  cases peerId with
  | none => exact hints_set ha rfl
  | some p => exact hints_set ha (h p rfl).symm

theorem record_asking (hs : Asking s) (peerId : Option Bytes) : Asking (s.record i a peerId) := by
  cases peerId with
  | none => exact asking_set hs (by simp)
  | some p => exact asking_set (i := i) hs (by simp)

variable (host) in
structure Stays (s u : Affinities) (e : Event) : Prop where
  hints : u.hints = s.hints
  last : u.lastGoodPeer = s.lastGoodPeer ∨ ∃ p, u.lastGoodPeer = some p ∧ some p ∈ s.hints
  providers : e.providers host = []
  asks : ∀ (i : ℕ) request peerId, e = .asks i request peerId → s.hints[i]? = some peerId

theorem record_stays (ha : s.fetches[i]? = some a) {peerId : Option Bytes}
    (h : ∀ p, peerId = some p → p ∈ a.lastGoodPeer) (result : Except PyError (Option Bytes)) :
    Stays host s (s.record i a peerId) (.answers i result) := by
  refine ⟨record_hints ha h, ?_, rfl, by simp⟩
  cases peerId with
  | none => exact .inl rfl
  | some p =>
    have hmem : a.lastGoodPeer ∈ s.hints := List.mem_map_of_mem (List.mem_of_getElem? ha)
    rw [h p rfl] at hmem
    exact .inr ⟨p, rfl, hmem⟩

theorem step_cases (hs : Asking s) (h : step host s e = some u) : Asking u ∧
    ((∃ providerAddr, e = .begins providerAddr ∧ u.lastGoodPeer = host.seed s.lastGoodPeer providerAddr ∧
      u.hints = s.hints ++ [host.seed s.lastGoodPeer providerAddr]) ∨ Stays host s u e) := by
  cases e with
  | begins providerAddr =>
    obtain rfl := Option.some.inj h
    refine ⟨?_, .inl ⟨providerAddr, rfl, rfl, List.map_append⟩⟩
    intro a ha
    rcases List.mem_append.mp ha with ha | ha
    · exact hs a ha
    · rw [List.mem_singleton.mp ha]
      simp
  | asks i request peerId =>
    obtain ⟨a, ha, h⟩ := Option.bind_eq_some_iff.mp h
    obtain ⟨⟨-, rfl⟩, hu⟩ := Option.ite_none_right_eq_some.mp h
    obtain rfl := Option.some.inj hu
    refine ⟨asking_set hs fun _ _ hasked => ?_, .inr ⟨hints_set ha rfl, .inl rfl, rfl, fun j _ _ he => ?_⟩⟩
    · exact (congrArg Prod.snd (Option.some.inj hasked)).symm
    · obtain ⟨rfl, rfl, rfl⟩ := Event.asks.inj he
      rw [hints, List.getElem?_map, ha, Option.map_some]
  | answers i result =>
    obtain ⟨a, ha, h⟩ := Option.bind_eq_some_iff.mp h
    have hcleared : Asking (s.record i a none) := record_asking hs none
    have hstays : Stays host s (s.record i a none) (.answers i result) := record_stays ha (by simp) result
    rcases hasked : a.asked with _ | ⟨_ | _, peerId⟩
    · rw [hasked] at h
      contradiction
    · rw [hasked] at h
      cases result with
      | error _ =>
        obtain rfl := Option.some.inj h
        exact ⟨hcleared, .inr hstays⟩
      | ok data =>
        obtain rfl := Option.some.inj h
        have hpeer : peerId = a.lastGoodPeer := hs a (List.mem_of_getElem? ha) _ _ hasked
        exact ⟨record_asking hs peerId, .inr (record_stays ha (fun p hp => hpeer ▸ hp) _)⟩
    · rw [hasked] at h
      obtain rfl := Option.some.inj h
      exact ⟨hcleared, .inr hstays⟩

theorem getElem?_concat_iff {α : Type} {l : List α} {x y : α} :
    (l ++ [x])[i]? = some y ↔ l[i]? = some y ∨ i = l.length ∧ x = y := by
  rw [List.getElem?_append]
  split_ifs with hi
  · exact ⟨.inl, fun h => h.elim id fun h => absurd h.1 hi.ne⟩
  · rw [List.getElem?_eq_none (Nat.le_of_not_lt hi), List.getElem?_singleton]
    split_ifs with hzero
    · simp only [false_or, Option.some.injEq]
      exact ⟨fun h => ⟨by omega, h⟩, And.right⟩
    · simp only [false_or, false_iff, not_and]
      exact fun h => absurd h (by omega)

theorem Hinted.begins (hs : Hinted host events s) {providerAddr : String}
    (hlast : u.lastGoodPeer = host.seed s.lastGoodPeer providerAddr)
    (hhints : u.hints = s.hints ++ [host.seed s.lastGoodPeer providerAddr]) :
    Hinted host (events ++ [.begins providerAddr]) u := by
  have hproviders : providers host (events ++ [.begins providerAddr]) =
      providers host events ++ [host.provider providerAddr] := by
    rw [providers, List.flatMap_append, List.flatMap_singleton]
    rfl
  have hlen := hs.fetches
  have hsome (p : Bytes) : host.seed s.lastGoodPeer providerAddr = some p ↔
      host.provider providerAddr = some p ∨ host.provider providerAddr = none ∧ s.lastGoodPeer = some p :=
    Option.or_eq_some_iff
  constructor
  · rw [hhints, hproviders, List.length_append, List.length_append, hlen]
    rfl
  · intro i request peerId hmem
    rw [hhints, getElem?_concat_iff]
    exact .inl (hs.asked i request peerId (by simpa using hmem))
  · intro i p hp
    rw [hproviders, getElem?_concat_iff] at hp
    rw [hhints, getElem?_concat_iff]
    rcases hp with hp | ⟨rfl, hp⟩
    · exact .inl (hs.own i p hp)
    · exact .inr ⟨hlen.symm, (hsome p).mpr (.inl hp)⟩
  · intro i p hp
    rw [hhints, getElem?_concat_iff] at hp
    simp only [hproviders, getElem?_concat_iff]
    rcases hp with hp | ⟨rfl, hp⟩
    · obtain ⟨j, hj, hgiven⟩ := hs.earlier i p hp
      exact ⟨j, hj, .inl hgiven⟩
    · rcases (hsome p).mp hp with hp | ⟨-, hp⟩
      · exact ⟨_, hlen.ge, .inr ⟨rfl, hp⟩⟩
      · obtain ⟨j, hj⟩ := List.mem_iff_getElem?.mp (hs.last p hp)
        have hlt := (List.getElem?_eq_some_iff.mp hj).1
        exact ⟨j, by omega, .inl hj⟩
  · intro i j p hji hp hnone
    rw [hproviders, getElem?_concat_iff] at hp
    rw [hhints, getElem?_concat_iff] at hnone
    rcases hnone with hnone | ⟨rfl, hnone⟩
    · have hlt := (List.getElem?_eq_some_iff.mp hnone).1
      rcases hp with hp | ⟨rfl, -⟩
      · exact hs.kept i j p hji hp hnone
      · omega
    · -- the new fetch has no hint only if no address was ever given
      obtain ⟨hprovider, hlost⟩ := Option.or_eq_none_iff.mp hnone
      rcases hp with hp | ⟨-, hp⟩
      · exact hs.lost hlost p (List.mem_of_getElem? hp)
      · rw [hprovider] at hp
        contradiction
  · intro p hp
    rw [hproviders, List.mem_append]
    rcases (hsome p).mp (hlast.symm.trans hp) with hp | ⟨-, hp⟩
    · exact .inr (by simp [hp])
    · exact .inl (hs.last p hp)
  · intro hnone p hp
    obtain ⟨hprovider, hlost⟩ := Option.or_eq_none_iff.mp (hlast.symm.trans hnone)
    rw [hproviders, List.mem_append] at hp
    rcases hp with hp | hp
    · exact hs.lost hlost p hp
    · rw [hprovider] at hp
      simp at hp

theorem Hinted.stays (hs : Hinted host events s) (h : Stays host s u e) : Hinted host (events ++ [e]) u := by
  have hproviders : providers host (events ++ [e]) = providers host events := by
    rw [providers, List.flatMap_append, List.flatMap_singleton, h.providers, List.append_nil]
    rfl
  constructor
  · rw [h.hints, hproviders]
    exact hs.fetches
  · intro i request peerId hmem
    rw [h.hints]
    rcases List.mem_append.mp hmem with hmem | hmem
    · exact hs.asked i request peerId hmem
    · exact h.asks i request peerId (List.mem_singleton.mp hmem).symm
  · rw [h.hints, hproviders]
    exact hs.own
  · rw [h.hints, hproviders]
    exact hs.earlier
  · rw [h.hints, hproviders]
    exact hs.kept
  · intro p hp
    rw [hproviders]
    rcases h.last with hlast | ⟨q, hq, hmem⟩
    · exact hs.last p (hlast ▸ hp)
    · obtain rfl := Option.some.inj (hq.symm.trans hp)
      obtain ⟨i, hi⟩ := List.mem_iff_getElem?.mp hmem
      obtain ⟨j, -, hj⟩ := hs.earlier i q hi
      exact List.mem_of_getElem? hj
  · intro hnone
    rw [hproviders]
    rcases h.last with hlast | ⟨q, hq, -⟩
    · exact hs.lost (hlast ▸ hnone)
    · rw [hq] at hnone
      contradiction

theorem initial_hinted : Hinted host [] initial := by
  constructor <;> simp [initial, hints, providers]

theorem run_hinted (h : Run (fun s e u => step host s e = some u) initial events s) : Hinted host events s := by
  have hboth : Asking s ∧ Hinted host events s := by
    refine h.history (P := fun events s => Asking s ∧ Hinted host events s) ?_ ⟨by simp [Asking, initial], initial_hinted⟩
    rintro events s e u ⟨hasking, hs⟩ hstep
    obtain ⟨hasking', ⟨_, rfl, hlast, hhints⟩ | hstays⟩ := step_cases hasking hstep
    · exact ⟨hasking', hs.begins hlast hhints⟩
    · exact ⟨hasking', hs.stays hstays⟩
  exact hboth.2

end Affinities

/-! The requests of one call among those of the others -/

section Requests

/-- A request with its answer; how a batch ends makes no difference. -/
structure Exchanged where
  request : Request
  peerId : Option Bytes
  result : Except PyError (Option Bytes)

def Exchanged.events (i : ℕ) (q : Exchanged) : List Event := [.asks i q.request q.peerId, .answers i q.result]

inductive FetchStep (ex : Exchange σ) : Fetch σ → Exchanged → Fetch σ → Prop
  | block (f : Fetch σ) (cid : Bytes) :
    FetchStep ex f ⟨.block, f.lastGoodPeer, (fetchBlock ex f cid).2⟩ (fetchBlock ex f cid).1
  | batch {getBlocksBatch : σ → List Bytes → Option Bytes → ℕ → σ × Except PyError Unit}
    (h : ex.getBlocksBatch = some getBlocksBatch) (f : Fetch σ) (cids : List Bytes) (batchSize : ℕ) :
    FetchStep ex f ⟨.batch, f.lastGoodPeer, .ok none⟩
      { f with exchange := (getBlocksBatch f.exchange cids f.lastGoodPeer batchSize).1 }

theorem steps_simulates (ex : Exchange σ) (batch : Bool) (f₀ : Fetch σ) :
    Simulates (fun f f' => f = f' ∧ ∃ requests, Run (FetchStep ex) f₀ requests f) ex ex batch := by
  constructor
  · rintro f _ cid ⟨rfl, requests, hf⟩
    exact ⟨⟨rfl, _, hf.tail (.block f cid)⟩, rfl⟩
  · rintro f _ batchSize links ⟨rfl, requests, hf⟩
    unfold prefetch
    cases hbatch : ex.getBlocksBatch with
    | none => exact .ok ⟨rfl, requests, hf⟩
    | some getBlocksBatch =>
      dsimp only
      split_ifs
      · cases linkCids links with
        | error e => exact .error e
        | ok cids => exact .ok ⟨rfl, _, hf.tail (.batch hbatch f cids batchSize)⟩
      · exact .ok ⟨rfl, requests, hf⟩

theorem fetchStream_requests (lib : FileLib) (ex : Exchange σ) (batch : Bool) (depth : ℕ) (f : Fetch σ) (cid : Bytes) :
    ∃ requests, Run (FetchStep ex) f requests (fetchStream lib ex batch depth f cid).1 :=
  ((steps_simulates ex batch f).fetchStream ⟨rfl, [], .refl⟩ depth cid).fetch.2

theorem adapter_lastGoodPeer {b : Bitswap σ} {f g : Fetch (ExchangeAdapter σ)} {q : Exchanged}
    (h : FetchStep (ExchangeAdapter.toExchange b) f q g) : g.lastGoodPeer = f.lastGoodPeer ∧ q.peerId = f.lastGoodPeer := by
  cases h with
  | block f cid =>
    refine ⟨?_, rfl⟩
    simp only [fetchBlock, ExchangeAdapter.toExchange, ExchangeAdapter.getBlock]
    rcases b.getBlock f.exchange.exchange cid f.lastGoodPeer with ⟨x, _ | data⟩
    · rfl
    · exact Option.or_self
  | batch => exact ⟨rfl, rfl⟩

namespace Affinities

structure Resting (s : Affinities) (i : ℕ) (hint : Option Bytes) : Prop where
  fetch : s.fetches[i]? = some ⟨hint, none⟩
  last : s.lastGoodPeer = hint

variable {s : Affinities} {i : ℕ} {hint : Option Bytes} {b : Bitswap σ} {host : Host σ}

theorem Resting.record {a : FetchAffinity} (hs : s.fetches[i]? = some a) (ha : a.lastGoodPeer = hint)
    (hlast : s.lastGoodPeer = hint) {peerId : Option Bytes} (h : ∀ p, peerId = some p → hint = some p) :
    Resting (s.record i a peerId) i hint := by
  have hlt := (List.getElem?_eq_some_iff.mp hs).1
  subst ha
  cases peerId with
  | none => exact ⟨List.getElem?_set_self hlt, hlast⟩
  | some p => exact ⟨(List.getElem?_set_self hlt).trans (by rw [h p rfl]), (h p rfl).symm⟩

theorem Resting.request_run (hs : Resting s i hint) (request : Request) (result : Except PyError (Option Bytes)) :
    ∃ u, Run (fun s e u => step host s e = some u) s (Exchanged.events i ⟨request, hint, result⟩) u ∧
      Resting u i hint := by
  have hlt := (List.getElem?_eq_some_iff.mp hs.fetch).1
  let a : FetchAffinity := ⟨hint, some (request, hint)⟩
  let asked : Affinities := { s with fetches := s.fetches.set i a }
  have hask : step host s (.asks i request hint) = some asked := by
    rw [step, hs.fetch, Option.bind_some, if_pos ⟨rfl, rfl⟩]
  have hget : asked.fetches[i]? = some a := List.getElem?_set_self hlt
  have hrecord (peerId : Option Bytes) (h : ∀ p, peerId = some p → hint = some p) :
      Resting (asked.record i a peerId) i hint := .record hget rfl hs.last h
  have hanswer : ∃ u, step host asked (.answers i result) = some u ∧ Resting u i hint := by
    rw [step, hget, Option.bind_some]
    cases request with
    | batch => exact ⟨_, rfl, hrecord none (by simp)⟩
    | block =>
      cases result with
      | error _ => exact ⟨_, rfl, hrecord none (by simp)⟩
      | ok _ => exact ⟨_, rfl, hrecord hint (fun _ hp => hp)⟩
  obtain ⟨u, hu, hrest⟩ := hanswer
  exact ⟨u, (Run.single hask).tail hu, hrest⟩

theorem Resting.fetch_run {f g : Fetch (ExchangeAdapter σ)} {requests : List Exchanged}
    (h : Run (FetchStep (ExchangeAdapter.toExchange b)) f requests g) (hs : Resting s i f.lastGoodPeer) :
    g.lastGoodPeer = f.lastGoodPeer ∧ ∃ u, Run (fun s e u => step host s e = some u) s
      (requests.flatMap (Exchanged.events i)) u ∧ Resting u i f.lastGoodPeer := by
  induction h with
  | refl => exact ⟨rfl, s, .refl, hs⟩
  | @tail requests g v q _ hstep ih =>
    obtain ⟨hg, u, hrun, hu⟩ := ih
    obtain ⟨hv, hpeer⟩ := adapter_lastGoodPeer hstep
    obtain ⟨w, hw, hrest⟩ := hu.request_run q.request q.result
    refine ⟨hv.trans hg, w, ?_, hrest⟩
    rw [List.flatMap_append, List.flatMap_singleton]
    rw [← hg, ← hpeer] at hw
    exact hrun.trans hw

/-- A call that comes to its fetch is one of the fetches at once, with the requests that it makes. -/
theorem getFile_run (lib : FileLib) (batch : Bool) (depth : ℕ) (f : Fetch (ExchangeAdapter σ)) (call : FileCall)
    (hs : s.lastGoodPeer = f.lastGoodPeer) (hok : (getFile lib host b batch depth f call).2.isOk) :
    ∃ x requests u,
      Run (FetchStep (ExchangeAdapter.toExchange b)) ⟨x, host.seed f.lastGoodPeer call.providerAddr⟩ requests
        (getFile lib host b batch depth f call).1 ∧
      Run (fun s e u => step host s e = some u) s
        (.begins call.providerAddr :: requests.flatMap (Exchanged.events s.fetches.length)) u ∧
      u.lastGoodPeer = (getFile lib host b batch depth f call).1.lastGoodPeer := by
  revert hok
  rw [getFile]
  rcases host.connectProvider f.exchange.exchange call.cid call.providerAddr with ⟨x, _ | ⟨⟨⟩⟩⟩
  · exact fun hok => Bool.noConfusion hok
  · intro _
    let hint := host.seed f.lastGoodPeer call.providerAddr
    obtain ⟨requests, hrequests⟩ := fetchStream_requests lib (ExchangeAdapter.toExchange b) batch depth
      ⟨{ f.exchange with exchange := x }, hint⟩ call.cid
    let begun : Affinities := ⟨hint, s.fetches ++ [⟨hint, none⟩]⟩
    have hbegin : step host s (.begins call.providerAddr) = some begun := by
      rw [step, hs]
    have hresting : Resting begun s.fetches.length hint := ⟨List.getElem?_concat_length, rfl⟩
    obtain ⟨hlast, u, hrun, hu⟩ : _ ∧ ∃ u, Run (fun s e u => step host s e = some u) begun _ u ∧ _ :=
      hresting.fetch_run hrequests
    exact ⟨_, requests, u, hrequests, .head hbegin hrun, hu.last.trans hlast.symm⟩

theorem hints_given (lib : FileLib) (host : Host σ) (b : Bitswap σ) (batch : Bool) (depth : ℕ) (events : List Event)
    (s : Affinities) (h : Run (fun s e u => step host s e = some u) initial events s) :
    Hinted host events s ∧ ∀ (f : Fetch (ExchangeAdapter σ)) (call : FileCall), s.lastGoodPeer = f.lastGoodPeer →
      (getFile lib host b batch depth f call).2.isOk → ∃ x requests u,
        Run (FetchStep (ExchangeAdapter.toExchange b)) ⟨x, host.seed f.lastGoodPeer call.providerAddr⟩ requests
          (getFile lib host b batch depth f call).1 ∧
        Hinted host (events ++ .begins call.providerAddr :: requests.flatMap (Exchanged.events s.fetches.length)) u ∧
        u.lastGoodPeer = (getFile lib host b batch depth f call).1.lastGoodPeer := by
  refine ⟨run_hinted h, fun f call hs hok => ?_⟩
  obtain ⟨x, requests, u, hrequests, hrun, hlast⟩ := getFile_run lib batch depth f call hs hok
  exact ⟨x, requests, u, hrequests, run_hinted (h.trans hrun), hlast⟩

def twoPeersHost : Host Unit where
  has x _ := (x, .ok false)
  infoFromP2pAddr addr :=
    if addr = "/p2p/QmA" then .ok [65]
    else if addr = "/p2p/QmB" then .ok [66]
    else .error ⟨.valueError, "invalid multiaddr"⟩
  connect x _ := (x, .ok ())

def twoPeersBitswap : Bitswap Unit := ⟨fun _ cid _ => ((), .ok (fileStore.get? cid)), none, none⟩

/-- The block asked of A comes after the fetch from B has begun, and so A is asked next, and not B. -/
def lateAnswer : List Event :=
  [.begins "", .asks 0 .block none, .begins "/p2p/QmA", .asks 1 .block (some [65]), .answers 0 (.ok (some [97])),
    .begins "/p2p/QmB", .asks 2 .batch (some [66]), .answers 1 (.ok (some [98])), .begins "QmC",
    .asks 3 .block (some [65]), .answers 2 (.ok none)]

theorem hints_given_lateAnswer :
    let s := stateAfter (step twoPeersHost) initial lateAnswer (by decide +kernel)
    let call : FileCall := ⟨KnownCid.twiceA.bytes, ""⟩
    let fetched := (getFile fileLib twoPeersHost twoPeersBitswap true 2 ⟨⟨(), 0⟩, some [65]⟩ call).1
    s.lastGoodPeer = some [65] ∧ Hinted twoPeersHost lateAnswer s ∧ ∃ x requests u,
      Run (FetchStep (ExchangeAdapter.toExchange twoPeersBitswap)) ⟨x, some [65]⟩ requests fetched ∧
      Hinted twoPeersHost (lateAnswer ++ .begins "" :: requests.flatMap (Exchanged.events 4)) u ∧
      u.lastGoodPeer = fetched.lastGoodPeer := by
  intro s call fetched
  have hlast : s.lastGoodPeer = some [65] := by decide +kernel
  obtain ⟨hinted, hcall⟩ := hints_given fileLib twoPeersHost twoPeersBitswap true 2 lateAnswer s
    (run_stateAfter (step twoPeersHost) initial lateAnswer _)
  exact ⟨hlast, hinted, hcall ⟨⟨(), 0⟩, some [65]⟩ call hlast rfl⟩

end Affinities

end Requests

end IpfsLite.FetchHints
