import IpfsLite.FileFetch

/-! The peer that `get_file` asks first, and the `ExchangeAdapter` that it asks through. -/

namespace IpfsLite.Files

/-- What `ExchangeAdapter` calls: a Bitswap session, which does not say what peer it had a block from, and
the batch call of the exchange itself. -/
structure Bitswap (σ : Type) where
  getBlock : σ → (cid : Bytes) → (peerId : Option Bytes) → σ × Except PyError (Option Bytes)
  sessionBatch : Option (σ → (cids : List Bytes) → (peerId : Option Bytes) → (batchSize : ℕ) →
    σ × Except PyError Unit)
  exchangeBatch : Option (σ → (cids : List Bytes) → σ × Except PyError Unit)

structure ExchangeAdapter (σ : Type) where
  exchange : σ
  bytesReceived : ℕ
deriving DecidableEq

variable {σ τ : Type}

namespace Bitswap

variable (b : Bitswap σ)

def noBatch : PyError := ⟨.attributeError, "Neither session nor exchange has get_blocks_batch"⟩

def getBlocksBatch (x : σ) (cids : List Bytes) (peerId : Option Bytes) (batchSize : ℕ) : σ × Except PyError Unit :=
  match b.sessionBatch, b.exchangeBatch with
  | some batch, _ => batch x cids peerId batchSize
  | none, some batch => batch x cids
  | none, none => (x, .error noBatch)

def asking (hint : Option Bytes) : Exchange σ where
  getBlock x cid _ := ((b.getBlock x cid hint).1, (b.getBlock x cid hint).2.map .plain)
  getBlocksBatch := some fun x cids _ batchSize => b.getBlocksBatch x cids hint batchSize

end Bitswap

namespace ExchangeAdapter

/-- The peer of the reply is the one that was asked for. -/
def reply (returnPeer : Bool) (data peerId : Option Bytes) : Reply :=
  if returnPeer then .withPeer data peerId else .plain data

def getBlock (b : Bitswap σ) (returnPeer : Bool) (a : ExchangeAdapter σ) (cid : Bytes) (peerId : Option Bytes) :
    ExchangeAdapter σ × Except PyError Reply :=
  match b.getBlock a.exchange cid peerId with
  | (x, .error e) => ({ a with exchange := x }, .error e)
  | (x, .ok data) =>
    let received := if returnPeer then 0 else (data.getD []).length
    (⟨x, a.bytesReceived + received⟩, .ok (reply returnPeer data peerId))

def getBlocksBatch (b : Bitswap σ) (a : ExchangeAdapter σ) (cids : List Bytes) (peerId : Option Bytes)
    (batchSize : ℕ) : ExchangeAdapter σ × Except PyError Unit :=
  let (x, r) := b.getBlocksBatch a.exchange cids peerId batchSize
  ({ a with exchange := x }, r)

/-- The exchange as `get_file` calls it, always with `return_peer`. -/
def toExchange (b : Bitswap σ) : Exchange (ExchangeAdapter σ) where
  getBlock := getBlock b true
  getBlocksBatch := some (getBlocksBatch b)

end ExchangeAdapter

section Simulation

structure Agree {α : Type} (R : Fetch σ → Fetch τ → Prop) (p : Fetch σ × α) (q : Fetch τ × α) : Prop where
  fetch : R p.1 q.1
  result : p.2 = q.2

inductive Prefetched (R : Fetch σ → Fetch τ → Prop) : Except PyError (Fetch σ) → Except PyError (Fetch τ) → Prop
  | error (e : PyError) : Prefetched R (.error e) (.error e)
  | ok {f : Fetch σ} {f' : Fetch τ} (h : R f f') : Prefetched R (.ok f) (.ok f')

structure Simulates (R : Fetch σ → Fetch τ → Prop) (ex : Exchange σ) (ex' : Exchange τ) (batch : Bool) : Prop where
  block : ∀ f f' cid, R f f' → Agree R (fetchBlock ex f cid) (fetchBlock ex' f' cid)
  batch : ∀ f f' batchSize links, R f f' →
    Prefetched R (prefetch ex batch f batchSize links) (prefetch ex' batch f' batchSize links)

variable {R : Fetch σ → Fetch τ → Prop} {ex : Exchange σ} {ex' : Exchange τ} {batch : Bool} {lib : FileLib}
  {fetch : Fetch σ → Bytes → Fetch σ × Stream} {fetch' : Fetch τ → Bytes → Fetch τ × Stream} {f : Fetch σ}
  {f' : Fetch τ}

theorem yieldLinks_agree (hfetch : ∀ f f' cid, R f f' → Agree R (fetch f cid) (fetch' f' cid)) (hf : R f f')
    (links : List (Option Bytes)) : Agree R (yieldLinks fetch f links) (yieldLinks fetch' f' links) := by
  induction links generalizing f f' with
  | nil => exact ⟨hf, rfl⟩
  | cons link links ih =>
    cases link with
    | none => exact ⟨hf, rfl⟩
    | some cid =>
      obtain ⟨hg, hs⟩ := hfetch f f' cid hf
      simp only [yieldLinks, ← hs]
      cases (fetch f cid).2.ends with
      | some _ => exact ⟨hg, rfl⟩
      | none =>
        obtain ⟨hlast, hrest⟩ := ih hg
        exact ⟨hlast, by rw [hrest]⟩

namespace Simulates

theorem yieldBatches (h : Simulates R ex ex' batch)
    (hfetch : ∀ f f' cid, R f f' → Agree R (fetch f cid) (fetch' f' cid)) (hf : R f f') (batchSize rounds : ℕ)
    (links : List (Option Bytes)) : Agree R (Files.yieldBatches ex batch fetch batchSize rounds f links)
      (Files.yieldBatches ex' batch fetch' batchSize rounds f' links) := by
  induction rounds generalizing f f' links with
  | zero => exact ⟨hf, rfl⟩
  | succ rounds ih =>
    have hbatch := h.batch f f' batchSize (links.take batchSize) hf
    rw [Files.yieldBatches, Files.yieldBatches]
    split_ifs
    · exact ⟨hf, rfl⟩
    · generalize prefetch ex batch f batchSize (links.take batchSize) = r at hbatch ⊢
      generalize prefetch ex' batch f' batchSize (links.take batchSize) = r' at hbatch ⊢
      cases hbatch with
      | error _ => exact ⟨hf, rfl⟩
      | @ok g g' hg =>
        obtain ⟨hnext, hs⟩ := yieldLinks_agree hfetch hg (links.take batchSize)
        simp only [← hs]
        cases (yieldLinks fetch g (links.take batchSize)).2.ends with
        | some _ => exact ⟨hnext, rfl⟩
        | none =>
          obtain ⟨hlast, hrest⟩ := ih hnext (links.drop batchSize)
          exact ⟨hlast, by rw [hrest]⟩

theorem yieldDagPb (h : Simulates R ex ex' batch)
    (hfetch : ∀ f f' cid, R f f' → Agree R (fetch f cid) (fetch' f' cid)) (hf : R f f') (data : Bytes) :
    Agree R (Files.yieldDagPb lib ex batch fetch f data) (Files.yieldDagPb lib ex' batch fetch' f' data) := by
  unfold Files.yieldDagPb
  cases lib.isDirectoryNode data with
  | error _ => exact ⟨hf, rfl⟩
  | ok isDirectory =>
    cases lib.decodeDagPb data with
    | error _ => exact ⟨hf, rfl⟩
    | ok pb =>
      cases isDirectory with
      | true =>
        simp only [if_true, yieldDirectory]
        cases pb.links with
        | nil => exact ⟨hf, rfl⟩
        | cons link _ =>
          cases link with
          | none => exact ⟨hf, rfl⟩
          | some cid => exact hfetch f f' cid hf
      | false =>
        simp only [Bool.false_eq_true, if_false, yieldFile]
        by_cases hlinks : pb.links = []
        · rw [if_pos hlinks, if_pos hlinks]
          exact ⟨hf, rfl⟩
        · rw [if_neg hlinks, if_neg hlinks]
          exact h.yieldBatches hfetch hf _ _ pb.links

theorem fetchStream (h : Simulates R ex ex' batch) (hf : R f f') (depth : ℕ) (cid : Bytes) :
    Agree R (Files.fetchStream lib ex batch depth f cid) (Files.fetchStream lib ex' batch depth f' cid) := by
  induction depth generalizing f f' cid with
  | zero => exact ⟨hf, rfl⟩
  | succ depth ih =>
    have hblock := h.block f f' cid hf
    rw [Files.fetchStream, Files.fetchStream]
    generalize fetchBlock ex f cid = p at hblock ⊢
    generalize fetchBlock ex' f' cid = p' at hblock ⊢
    obtain ⟨g, r⟩ := p
    obtain ⟨g', r'⟩ := p'
    obtain ⟨hg, hr⟩ := hblock
    obtain rfl : r = r' := hr
    rcases r with _ | _ | data
    · exact ⟨hg, rfl⟩
    · exact ⟨hg, rfl⟩
    · simp only [yieldBlock]
      cases lib.parseCidCodec cid with
      | error _ => exact ⟨hg, rfl⟩
      | ok codec =>
        dsimp only
        split_ifs
        · exact ⟨hg, rfl⟩
        · exact h.yieldDagPb (fun _ _ cid hf => ih hf cid) hg data
        · exact ⟨hg, rfl⟩

end Simulates

end Simulation

/-! A fetch over the adapter -/

def overAdapter (hint : Option Bytes) (bytesReceived : ℕ) (f : Fetch σ) : Fetch (ExchangeAdapter σ) :=
  ⟨⟨f.exchange, bytesReceived⟩, hint⟩

theorem adapter_simulates (b : Bitswap σ) (hint : Option Bytes) (bytesReceived : ℕ) (batch : Bool) :
    Simulates (fun f f' => f' = overAdapter hint bytesReceived f) (b.asking hint) (ExchangeAdapter.toExchange b)
      batch := by
  constructor
  · rintro f _ cid rfl
    simp only [fetchBlock, overAdapter, Bitswap.asking, ExchangeAdapter.toExchange, ExchangeAdapter.getBlock]
    rcases b.getBlock f.exchange cid hint with ⟨x, _ | data⟩
    · exact ⟨rfl, rfl⟩
    · simp only [ExchangeAdapter.reply, if_true, Nat.add_zero, Except.map, Option.or_self]
      exact ⟨rfl, rfl⟩
  · rintro f _ batchSize links rfl
    simp only [prefetch, overAdapter, Bitswap.asking, ExchangeAdapter.toExchange]
    split_ifs
    · cases linkCids links with
      | error e => exact .error e
      | ok _ => exact .ok rfl
    · exact .ok rfl

structure Host (σ : Type) where
  has : σ → (cid : Bytes) → σ × Except PyError Bool
  infoFromP2pAddr : (addr : String) → Except PyError Bytes
  connect : σ → (addr : String) → σ × Except PyError Unit

namespace Host

variable (host : Host σ)

/-- A provider is connected to only where the root is missing; then whatever goes wrong is raised. -/
def connectProvider (x : σ) (cid : Bytes) (providerAddr : String) : σ × Except PyError Unit :=
  match host.has x cid with
  | (x, .error e) => (x, .error e)
  | (x, .ok true) => (x, .ok ())
  | (x, .ok false) =>
    if providerAddr = "" then (x, .ok ())
    else
      match host.infoFromP2pAddr providerAddr with
      | .error e => (x, .error e)
      | .ok _ => host.connect x providerAddr

/-- An address that cannot be read is passed over. -/
def provider (providerAddr : String) : Option Bytes :=
  if providerAddr = "" then none else (host.infoFromP2pAddr providerAddr).toOption

/-- What a new `_FetchAffinity` starts from, and leaves behind as `_last_good_peer`. -/
def seed (lastGoodPeer : Option Bytes) (providerAddr : String) : Option Bytes :=
  (host.provider providerAddr).or lastGoodPeer

end Host

/-- The arguments of `get_file`; no `provider_addr` is the empty one. -/
structure FileCall where
  cid : Bytes
  providerAddr : String

section Calls

variable (lib : FileLib) (host : Host σ) (b : Bitswap σ) (batch : Bool) (depth : ℕ)

def getFile (f : Fetch (ExchangeAdapter σ)) (call : FileCall) : Fetch (ExchangeAdapter σ) × Except PyError Stream :=
  match host.connectProvider f.exchange.exchange call.cid call.providerAddr with
  | (x, .error e) => ({ f with exchange := { f.exchange with exchange := x } }, .error e)
  | (x, .ok ()) =>
    let affinity : Fetch (ExchangeAdapter σ) :=
      ⟨{ f.exchange with exchange := x }, host.seed f.lastGoodPeer call.providerAddr⟩
    let (f, s) := fetchStream lib (ExchangeAdapter.toExchange b) batch depth affinity call.cid
    (f, .ok s)

def getFiles : Fetch (ExchangeAdapter σ) → List FileCall → Fetch (ExchangeAdapter σ) × List (Except PyError Stream)
  | f, [] => (f, [])
  | f, call :: calls =>
    let (f, r) := getFile lib host b batch depth f call
    let (f, rs) := getFiles f calls
    (f, r :: rs)

def getFileAsking (hint : Option Bytes) (x : σ) (call : FileCall) : σ × Except PyError Stream :=
  match host.connectProvider x call.cid call.providerAddr with
  | (x, .error e) => (x, .error e)
  | (x, .ok ()) =>
    let (f, s) := fetchStream lib (b.asking hint) batch depth ⟨x, none⟩ call.cid
    (f.exchange, .ok s)

/-- One fetch after the other, with the hints fixed by the addresses that were given: a call that comes
to its fetch leaves its hint to the next. -/
def getFilesAsking : Option Bytes → σ → List FileCall → (Option Bytes × σ) × List (Except PyError Stream)
  | hint, x, [] => ((hint, x), [])
  | hint, x, call :: calls =>
    let (x, r) := getFileAsking lib host b batch depth (host.seed hint call.providerAddr) x call
    let (last, rs) := getFilesAsking (if r.isOk then host.seed hint call.providerAddr else hint) x calls
    (last, r :: rs)

variable {lib host b batch depth}

theorem getFile_asking (f : Fetch (ExchangeAdapter σ)) (call : FileCall) :
    let hint := host.seed f.lastGoodPeer call.providerAddr
    let asked := getFileAsking lib host b batch depth hint f.exchange.exchange call
    getFile lib host b batch depth f call =
      (⟨⟨asked.1, f.exchange.bytesReceived⟩, if asked.2.isOk then hint else f.lastGoodPeer⟩, asked.2) := by
  intro hint asked
  simp only [asked, getFile, getFileAsking]
  rcases host.connectProvider f.exchange.exchange call.cid call.providerAddr with ⟨x, _ | ⟨⟨⟩⟩⟩
  · rfl
  · have hsim := adapter_simulates b hint f.exchange.bytesReceived batch
    have hagree : Agree _ (fetchStream lib (b.asking hint) batch depth ⟨x, none⟩ call.cid)
        (fetchStream lib (ExchangeAdapter.toExchange b) batch depth ⟨⟨x, f.exchange.bytesReceived⟩, hint⟩ call.cid) :=
      hsim.fetchStream rfl depth call.cid
    dsimp only
    rw [hagree.fetch, ← hagree.result]
    rfl

/-- Over `ExchangeAdapter` a fetch never learns who serves it: any number of calls of `get_file` are the
calls that ask, for every block and every batch, the peer of the address that was given last. -/
theorem getFiles_asking (lib : FileLib) (host : Host σ) (b : Bitswap σ) (batch : Bool) (depth : ℕ)
    (f : Fetch (ExchangeAdapter σ)) (calls : List FileCall) :
    let asked := getFilesAsking lib host b batch depth f.lastGoodPeer f.exchange.exchange calls
    getFiles lib host b batch depth f calls = (⟨⟨asked.1.2, f.exchange.bytesReceived⟩, asked.1.1⟩, asked.2) := by
  induction calls generalizing f with
  | nil => rfl
  | cons call calls ih =>
    simp only [getFiles, getFilesAsking, getFile_asking, ih]

end Calls

end IpfsLite.Files
