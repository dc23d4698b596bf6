import IpfsLite.FileFetch

namespace IpfsLite.Files

variable (lib : FileLib) (store : Store)

mutual

/-- The content of a CID. Only a DAG that is finite and wholly in the store has one. -/
inductive Content : Bytes → Bytes → Prop
  | raw {cid data : Bytes} (hs : store.get? cid = some data) (hc : lib.parseCidCodec cid = .ok "raw") :
      Content cid data
  | emptyDirectory {cid data : Bytes} {pb : DagPb} (hs : store.get? cid = some data)
      (hc : lib.parseCidCodec cid = .ok "dag-pb") (hd : lib.isDirectoryNode data = .ok true)
      (hpb : lib.decodeDagPb data = .ok pb) (hl : pb.links = []) : Content cid []
  | directory {cid data child content : Bytes} {pb : DagPb} {rest : List (Option Bytes)}
      (hs : store.get? cid = some data) (hc : lib.parseCidCodec cid = .ok "dag-pb")
      (hd : lib.isDirectoryNode data = .ok true) (hpb : lib.decodeDagPb data = .ok pb)
      (hl : pb.links = some child :: rest) (h : Content child content) : Content cid content
  | file {cid data content : Bytes} {pb : DagPb} (hs : store.get? cid = some data)
      (hc : lib.parseCidCodec cid = .ok "dag-pb") (hd : lib.isDirectoryNode data = .ok false)
      (hpb : lib.decodeDagPb data = .ok pb) (h : Contents pb.links content) :
      Content cid (lib.unixfsData pb.unixfs ++ content)
  | other {cid data : Bytes} {codec : String} (hs : store.get? cid = some data)
      (hc : lib.parseCidCodec cid = .ok codec) (hraw : codec ≠ "raw") (hpb : codec ≠ "dag-pb") :
      Content cid data

inductive Contents : List (Option Bytes) → Bytes → Prop
  | nil : Contents [] []
  | cons {cid content contents : Bytes} {links : List (Option Bytes)} (h : Content cid content)
      (hs : Contents links contents) : Contents (some cid :: links) (content ++ contents)

end

inductive ContentLink : Bytes → Bytes → Prop
  | directory {cid data child : Bytes} {pb : DagPb} {rest : List (Option Bytes)}
      (hs : store.get? cid = some data) (hc : lib.parseCidCodec cid = .ok "dag-pb")
      (hd : lib.isDirectoryNode data = .ok true) (hpb : lib.decodeDagPb data = .ok pb)
      (hl : pb.links = some child :: rest) : ContentLink cid child
  | file {cid data child : Bytes} {pb : DagPb} (hs : store.get? cid = some data)
      (hc : lib.parseCidCodec cid = .ok "dag-pb") (hd : lib.isDirectoryNode data = .ok false)
      (hpb : lib.decodeDagPb data = .ok pb) (hl : some child ∈ pb.links) : ContentLink cid child

/-- A block all of whose own content is delivered: no data beside links, no bytes under a codec other
than raw and dag-pb. -/
structure Plain (cid : Bytes) : Prop where
  file : ∀ data pb, store.get? cid = some data → lib.parseCidCodec cid = .ok "dag-pb" →
    lib.isDirectoryNode data = .ok false → lib.decodeDagPb data = .ok pb → pb.links ≠ [] →
      lib.unixfsData pb.unixfs = []
  other : ∀ data codec, store.get? cid = some data → lib.parseCidCodec cid = .ok codec →
    codec ≠ "raw" → codec ≠ "dag-pb" → data = []

def AllPlain (cid : Bytes) : Prop :=
  ∀ d, Relation.ReflTransGen (ContentLink lib store) cid d → Plain lib store d

def Serves {σ : Type} (ex : Exchange σ) : Prop := ∀ x cid peerId data, store.get? cid = some data →
  ∃ reply, (ex.getBlock x cid peerId).2 = .ok reply ∧ reply.data = some data

structure Delivers (s : Stream) (content : Bytes) : Prop where
  stream : s.bytes = content ∧ s.ends = none
  reader : ∃ r, bufferReader s = .ok r ∧ (r.read (-1)).1 = content
  output : writeOutput s = (content, none)

variable {lib store} {σ : Type} {ex : Exchange σ} {batch : Bool} {cid data content : Bytes}

theorem foldl_append (chunks : List Bytes) (written : Bytes) :
    chunks.foldl (· ++ ·) written = written ++ chunks.flatten := by
  induction chunks generalizing written with
  | nil => exact (List.append_nil written).symm
  | cons chunk chunks ih => rw [List.foldl_cons, ih, List.flatten_cons, List.append_assoc]

theorem delivers_iff (s : Stream) (content : Bytes) :
    Delivers s content ↔ s.bytes = content ∧ s.ends = none := by
  constructor
  · exact fun h => h.stream
  · rintro ⟨rfl, hends⟩
    refine ⟨⟨rfl, hends⟩, ⟨⟨s.bytes, 0⟩, ?_, rfl⟩, ?_⟩
    · rw [bufferReader, Stream.join, hends]
      rfl
    · rw [writeOutput, foldl_append, hends, List.nil_append, Stream.bytes]

def Yields (fetch : Fetch σ → Bytes → Fetch σ × Stream) (cid bytes : Bytes) : Prop :=
  ∀ f, (fetch f cid).2.bytes = bytes ∧ (fetch f cid).2.ends = none

inductive YieldsAll (fetch : Fetch σ → Bytes → Fetch σ × Stream) : List (Option Bytes) → Bytes → Prop
  | nil : YieldsAll fetch [] []
  | cons {cid bytes rest : Bytes} {links : List (Option Bytes)} (h : Yields fetch cid bytes)
      (hs : YieldsAll fetch links rest) : YieldsAll fetch (some cid :: links) (bytes ++ rest)

variable {fetch : Fetch σ → Bytes → Fetch σ × Stream} {links : List (Option Bytes)} {bytes : Bytes}

theorem YieldsAll.take_drop (h : YieldsAll fetch links bytes) (n : ℕ) : ∃ first rest,
    bytes = first ++ rest ∧ YieldsAll fetch (links.take n) first ∧ YieldsAll fetch (links.drop n) rest := by
  induction n generalizing links bytes with
  | zero => exact ⟨[], bytes, rfl, .nil, h⟩
  | succ n ih =>
    cases h with
    | nil => exact ⟨[], [], rfl, .nil, .nil⟩
    | cons h hs =>
      obtain ⟨first, rest, rfl, hfirst, hrest⟩ := ih hs
      exact ⟨_, rest, (List.append_assoc ..).symm, .cons h hfirst, hrest⟩

theorem yieldLinks_bytes (h : YieldsAll fetch links bytes) (f : Fetch σ) :
    (yieldLinks fetch f links).2.bytes = bytes ∧ (yieldLinks fetch f links).2.ends = none := by
  induction h generalizing f with
  | nil => exact ⟨rfl, rfl⟩
  | @cons cid bytes rest links h hs ih =>
    obtain ⟨hbytes, hends⟩ := h f
    obtain ⟨hrest, hrestEnds⟩ := ih (fetch f cid).1
    simp only [yieldLinks, hends]
    rw [Stream.bytes, List.flatten_append, ← Stream.bytes, ← Stream.bytes, hbytes, hrest]
    exact ⟨rfl, hrestEnds⟩

theorem linkCids_ok (h : YieldsAll fetch links bytes) : ∃ cids, linkCids links = .ok cids := by
  induction h with
  | nil => exact ⟨[], rfl⟩
  | @cons cid bytes rest links h hs ih =>
    obtain ⟨cids, hcids⟩ := ih
    exact ⟨cid :: cids, by rw [linkCids, hcids, Except.map]⟩

variable (ex batch) in
theorem prefetch_ok (h : YieldsAll fetch links bytes) (f : Fetch σ) (batchSize : ℕ) :
    ∃ f', prefetch ex batch f batchSize links = .ok f' := by
  obtain ⟨cids, hcids⟩ := linkCids_ok h
  unfold prefetch
  cases ex.getBlocksBatch with
  | none => exact ⟨f, rfl⟩
  | some getBlocksBatch =>
    dsimp only
    split_ifs
    · rw [hcids]
      exact ⟨_, rfl⟩
    · exact ⟨f, rfl⟩

theorem yieldBatches_bytes {batchSize rounds : ℕ} (hsize : 0 < batchSize) (h : YieldsAll fetch links bytes)
    (hrounds : links.length ≤ rounds) (f : Fetch σ) :
    (yieldBatches ex batch fetch batchSize rounds f links).2.bytes = bytes ∧
      (yieldBatches ex batch fetch batchSize rounds f links).2.ends = none := by
  induction rounds generalizing links bytes f with
  | zero =>
    obtain rfl := List.eq_nil_of_length_eq_zero (Nat.le_zero.mp hrounds)
    cases h
    exact ⟨rfl, rfl⟩
  | succ rounds ih =>
    rw [yieldBatches]
    split_ifs with hlinks
    · rw [hlinks] at h
      cases h
      exact ⟨rfl, rfl⟩
    · have hpos := List.length_pos_of_ne_nil hlinks
      obtain ⟨first, rest, rfl, hfirst, hrest⟩ := h.take_drop batchSize
      obtain ⟨f', hf'⟩ := prefetch_ok ex batch hfirst f batchSize
      obtain ⟨hbytes, hends⟩ := yieldLinks_bytes hfirst f'
      have hshort : (links.drop batchSize).length ≤ rounds := by
        rw [List.length_drop]
        omega
      obtain ⟨hrestBytes, hrestEnds⟩ := ih hrest hshort (yieldLinks fetch f' (links.take batchSize)).1
      simp only [hf', hends]
      rw [Stream.bytes, List.flatten_append, ← Stream.bytes, ← Stream.bytes, hbytes, hrestBytes]
      exact ⟨rfl, hrestEnds⟩

theorem fetchStream_block (hserves : Serves store ex) (hs : store.get? cid = some data) (depth : ℕ)
    (f : Fetch σ) : ∃ f', fetchStream lib ex batch (depth + 1) f cid =
      yieldBlock lib ex batch (fetchStream lib ex batch depth) f' cid data := by
  obtain ⟨reply, hreply, hdata⟩ := hserves f.exchange cid f.lastGoodPeer data hs
  rw [fetchStream, fetchBlock]
  cases hget : ex.getBlock f.exchange cid f.lastGoodPeer with
  | mk x r =>
    obtain rfl : r = .ok reply := by rw [← hreply, hget]
    cases reply with
    | plain d =>
      obtain rfl : d = some data := hdata
      exact ⟨_, rfl⟩
    | withPeer d peerId =>
      obtain rfl : d = some data := hdata
      exact ⟨_, rfl⟩

theorem yields_of_block (hserves : Serves store ex) (hs : store.get? cid = some data) {depth : ℕ}
    (h : ∀ f, (yieldBlock lib ex batch (fetchStream lib ex batch depth) f cid data).2.bytes = bytes ∧
      (yieldBlock lib ex batch (fetchStream lib ex batch depth) f cid data).2.ends = none) :
    Yields (fetchStream lib ex batch (depth + 1)) cid bytes := by
  intro f
  obtain ⟨f', hf'⟩ := fetchStream_block hserves hs depth f
  rw [hf']
  exact h f'

theorem allPlain_iff : AllPlain lib store cid ↔
    Plain lib store cid ∧ ∀ child, ContentLink lib store cid child → AllPlain lib store child := by
  constructor
  · exact fun h => ⟨h cid .refl, fun child hchild d hd => h d (.head hchild hd)⟩
  · rintro ⟨hplain, hchildren⟩ d hd
    rcases hd.cases_head with rfl | ⟨child, hchild, hd⟩
    · exact hplain
    · exact hchildren child hchild d hd

theorem no_contentLink {codec : String} (hc : lib.parseCidCodec cid = .ok codec) (hne : codec ≠ "dag-pb")
    (child : Bytes) : ¬ContentLink lib store cid child := by
  intro h
  cases h with
  | directory _ hc' => exact hne (Except.ok.inj (hc.symm.trans hc'))
  | file _ hc' => exact hne (Except.ok.inj (hc.symm.trans hc'))

theorem contentLink_directory {pb : DagPb} (hs : store.get? cid = some data)
    (hd : lib.isDirectoryNode data = .ok true) (hpb : lib.decodeDagPb data = .ok pb) {child : Bytes}
    (h : ContentLink lib store cid child) : pb.links.head? = some (some child) := by
  cases h with
  | directory hs' _ _ hpb' hl' =>
    obtain rfl := Option.some.inj (hs.symm.trans hs')
    obtain rfl := Except.ok.inj (hpb.symm.trans hpb')
    rw [hl', List.head?_cons]
  | file hs' _ hd' =>
    obtain rfl := Option.some.inj (hs.symm.trans hs')
    exact absurd (hd.symm.trans hd') (by decide)

theorem contentLink_file {pb : DagPb} (hs : store.get? cid = some data)
    (hc : lib.parseCidCodec cid = .ok "dag-pb") (hd : lib.isDirectoryNode data = .ok false)
    (hpb : lib.decodeDagPb data = .ok pb) {child : Bytes} :
    ContentLink lib store cid child ↔ some child ∈ pb.links := by
  constructor
  · intro h
    cases h with
    | directory hs' _ hd' =>
      obtain rfl := Option.some.inj (hs.symm.trans hs')
      exact absurd (hd.symm.trans hd') (by decide)
    | file hs' _ _ hpb' hl' =>
      obtain rfl := Option.some.inj (hs.symm.trans hs')
      obtain rfl := Except.ok.inj (hpb.symm.trans hpb')
      exact hl'
  · exact .file hs hc hd hpb

theorem plain_file_iff {pb : DagPb} (hs : store.get? cid = some data)
    (hc : lib.parseCidCodec cid = .ok "dag-pb") (hd : lib.isDirectoryNode data = .ok false)
    (hpb : lib.decodeDagPb data = .ok pb) :
    Plain lib store cid ↔ (pb.links ≠ [] → lib.unixfsData pb.unixfs = []) := by
  constructor
  · exact fun h hne => h.file data pb hs hc hd hpb hne
  · intro h
    refine ⟨fun data' pb' hs' _ _ hpb' hne => ?_, fun data' codec _ hc' _ hne => ?_⟩
    · obtain rfl := Option.some.inj (hs.symm.trans hs')
      obtain rfl := Except.ok.inj (hpb.symm.trans hpb')
      exact h hne
    · exact absurd (Except.ok.inj (hc'.symm.trans hc)) hne

theorem plain_directory (hs : store.get? cid = some data) (hc : lib.parseCidCodec cid = .ok "dag-pb")
    (hd : lib.isDirectoryNode data = .ok true) : Plain lib store cid := by
  refine ⟨fun data' pb hs' _ hd' _ _ => ?_, fun data' codec _ hc' _ hne => ?_⟩
  · obtain rfl := Option.some.inj (hs.symm.trans hs')
    exact absurd (hd.symm.trans hd') (by decide)
  · exact absurd (Except.ok.inj (hc'.symm.trans hc)) hne

def Delivered (ex : Exchange σ) (batch : Bool) (lib : FileLib) (store : Store) (cid content : Bytes) : Prop :=
  ∃ depth out, (∀ d, depth ≤ d → Yields (fetchStream lib ex batch d) cid out) ∧ out.Sublist content ∧
    (out = content ↔ AllPlain lib store cid)

def DeliveredAll (ex : Exchange σ) (batch : Bool) (lib : FileLib) (store : Store)
    (links : List (Option Bytes)) (content : Bytes) : Prop :=
  ∃ depth out, (∀ d, depth ≤ d → YieldsAll (fetchStream lib ex batch d) links out) ∧ out.Sublist content ∧
    (out = content ↔ ∀ child, some child ∈ links → AllPlain lib store child)

theorem delivered_leaf {codec : String} (out : Bytes) (hserves : Serves store ex)
    (hs : store.get? cid = some data) (hc : lib.parseCidCodec cid = .ok codec) (hne : codec ≠ "dag-pb")
    (hblock : ∀ depth f, (yieldBlock lib ex batch (fetchStream lib ex batch depth) f cid data).2.bytes = out ∧
      (yieldBlock lib ex batch (fetchStream lib ex batch depth) f cid data).2.ends = none)
    (hsub : out.Sublist data) (hplain : out = data ↔ Plain lib store cid) :
    Delivered ex batch lib store cid data := by
  refine ⟨1, out, fun d hd => ?_, hsub, ?_⟩
  · obtain ⟨depth, rfl⟩ := Nat.exists_eq_add_of_le' hd
    exact yields_of_block hserves hs (hblock depth)
  · rw [hplain, allPlain_iff]
    exact ⟨fun h => ⟨h, fun child hchild => absurd hchild (no_contentLink hc hne child)⟩, And.left⟩

theorem delivered_raw (hserves : Serves store ex) (hs : store.get? cid = some data)
    (hc : lib.parseCidCodec cid = .ok "raw") : Delivered ex batch lib store cid data := by
  apply delivered_leaf data hserves hs hc (by decide)
  · intro depth f
    rw [yieldBlock, hc]
    exact ⟨List.append_nil data, rfl⟩
  · exact .refl data
  · refine iff_of_true rfl ⟨fun _ _ _ hc' => ?_, fun _ codec _ hc' hraw => ?_⟩
    · exact absurd (Except.ok.inj (hc.symm.trans hc')) (by decide)
    · exact absurd (Except.ok.inj (hc'.symm.trans hc)) hraw

theorem delivered_other {codec : String} (hserves : Serves store ex) (hs : store.get? cid = some data)
    (hc : lib.parseCidCodec cid = .ok codec) (hraw : codec ≠ "raw") (hpb : codec ≠ "dag-pb") :
    Delivered ex batch lib store cid data := by
  apply delivered_leaf [] hserves hs hc hpb
  · intro depth f
    simp only [yieldBlock, hc, if_neg hraw, if_neg hpb]
    exact ⟨rfl, rfl⟩
  · exact List.nil_sublist data
  · constructor
    · intro hempty
      refine ⟨fun _ _ _ hc' => ?_, fun data' _ hs' _ _ _ => ?_⟩
      · exact absurd (Except.ok.inj (hc.symm.trans hc')) hpb
      · rw [← Option.some.inj (hs.symm.trans hs'), ← hempty]
    · exact fun h => (h.other data codec hs hc hraw hpb).symm

theorem yieldBlock_dagPb {pb : DagPb} {isDirectory : Bool} (hc : lib.parseCidCodec cid = .ok "dag-pb")
    (hd : lib.isDirectoryNode data = .ok isDirectory) (hpb : lib.decodeDagPb data = .ok pb) (f : Fetch σ) :
    yieldBlock lib ex batch fetch f cid data =
      if isDirectory then yieldDirectory fetch f pb.links else yieldFile lib ex batch fetch f pb := by
  rw [yieldBlock, hc]
  simp only [yieldDagPb, hd, hpb]
  rfl

theorem delivered_emptyDirectory {pb : DagPb} (hserves : Serves store ex) (hs : store.get? cid = some data)
    (hc : lib.parseCidCodec cid = .ok "dag-pb") (hd : lib.isDirectoryNode data = .ok true)
    (hpb : lib.decodeDagPb data = .ok pb) (hl : pb.links = []) : Delivered ex batch lib store cid [] := by
  refine ⟨1, [], fun d hdepth => ?_, .refl [], iff_of_true rfl ?_⟩
  · obtain ⟨depth, rfl⟩ := Nat.exists_eq_add_of_le' hdepth
    apply yields_of_block hserves hs
    intro f
    rw [yieldBlock_dagPb hc hd hpb, if_pos rfl, hl]
    exact ⟨rfl, rfl⟩
  · refine allPlain_iff.mpr ⟨plain_directory hs hc hd, fun child hchild => ?_⟩
    have hhead := contentLink_directory hs hd hpb hchild
    rw [hl] at hhead
    contradiction

theorem delivered_directory {pb : DagPb} {child : Bytes} {rest : List (Option Bytes)}
    (hserves : Serves store ex) (hs : store.get? cid = some data)
    (hc : lib.parseCidCodec cid = .ok "dag-pb") (hd : lib.isDirectoryNode data = .ok true)
    (hpb : lib.decodeDagPb data = .ok pb) (hl : pb.links = some child :: rest)
    (h : Delivered ex batch lib store child content) : Delivered ex batch lib store cid content := by
  obtain ⟨depth, out, hyields, hsub, hiff⟩ := h
  refine ⟨depth + 1, out, fun d hdepth => ?_, hsub, ?_⟩
  · obtain ⟨more, rfl⟩ := Nat.exists_eq_add_of_le hdepth
    have hmore : depth + 1 + more = (depth + more) + 1 := by omega
    rw [hmore]
    apply yields_of_block hserves hs
    intro f
    rw [yieldBlock_dagPb hc hd hpb, if_pos rfl, hl]
    exact hyields (depth + more) (Nat.le_add_right depth more) f
  · have hlink : ContentLink lib store cid child := .directory hs hc hd hpb hl
    rw [hiff]
    refine Iff.trans ?_ allPlain_iff.symm
    refine ⟨fun h => ⟨plain_directory hs hc hd, fun d hchild => ?_⟩, fun h => h.2 child hlink⟩
    have hhead := contentLink_directory hs hd hpb hchild
    rw [hl] at hhead
    obtain rfl : child = d := Option.some.inj (Option.some.inj hhead)
    exact h

theorem delivered_file {pb : DagPb} (hserves : Serves store ex) (hs : store.get? cid = some data)
    (hc : lib.parseCidCodec cid = .ok "dag-pb") (hd : lib.isDirectoryNode data = .ok false)
    (hpb : lib.decodeDagPb data = .ok pb) (h : DeliveredAll ex batch lib store pb.links content) :
    Delivered ex batch lib store cid (lib.unixfsData pb.unixfs ++ content) := by
  obtain ⟨depth, out, hyields, hsub, hiff⟩ := h
  have hall : AllPlain lib store cid ↔ (pb.links ≠ [] → lib.unixfsData pb.unixfs = []) ∧ out = content := by
    rw [allPlain_iff, plain_file_iff hs hc hd hpb, hiff]
    simp only [contentLink_file hs hc hd hpb]
  by_cases hl : pb.links = []
  · have hnil := hyields depth le_rfl
    rw [hl] at hnil
    cases hnil
    refine ⟨1, lib.unixfsData pb.unixfs, fun d hdepth => ?_, List.sublist_append_left _ _, ?_⟩
    · obtain ⟨more, rfl⟩ := Nat.exists_eq_add_of_le' hdepth
      apply yields_of_block hserves hs
      intro f
      rw [yieldBlock_dagPb hc hd hpb, if_neg (by decide), yieldFile, if_pos hl]
      split_ifs with hdata
      · exact ⟨hdata.symm, rfl⟩
      · exact ⟨List.append_nil _, rfl⟩
    · rw [hall, List.self_eq_append_right]
      exact ⟨fun hcontent => ⟨fun hne => absurd hl hne, hcontent.symm⟩, fun h => h.2.symm⟩
  · refine ⟨depth + 1, out, fun d hdepth => ?_, hsub.trans (List.sublist_append_right _ _), ?_⟩
    · obtain ⟨more, rfl⟩ := Nat.exists_eq_add_of_le hdepth
      have hmore : depth + 1 + more = (depth + more) + 1 := by omega
      have hsize : 0 < if batch then 32 else 1 := by
        split_ifs <;> decide
      rw [hmore]
      apply yields_of_block hserves hs
      intro f
      rw [yieldBlock_dagPb hc hd hpb, if_neg (by decide), yieldFile, if_neg hl]
      exact yieldBatches_bytes hsize (hyields (depth + more) (Nat.le_add_right depth more)) le_rfl f
    · rw [hall]
      constructor
      · intro he
        have hlen := congrArg List.length he
        have hle := hsub.length_le
        rw [List.length_append] at hlen
        have hown : lib.unixfsData pb.unixfs = [] := List.eq_nil_of_length_eq_zero (by omega)
        rw [hown, List.nil_append] at he
        exact ⟨fun _ => hown, he⟩
      · rintro ⟨hown, rfl⟩
        rw [hown hl, List.nil_append]

theorem deliveredAll_cons {child : Bytes} {contents : Bytes} (h : Delivered ex batch lib store child content)
    (hs : DeliveredAll ex batch lib store links contents) :
    DeliveredAll ex batch lib store (some child :: links) (content ++ contents) := by
  obtain ⟨depth, out, hyields, hsub, hiff⟩ := h
  obtain ⟨depths, outs, hyieldsAll, hsubs, hiffs⟩ := hs
  refine ⟨max depth depths, out ++ outs, fun d hd => ?_, hsub.append hsubs, ?_⟩
  · exact .cons (hyields d (le_trans (le_max_left _ _) hd)) (hyieldsAll d (le_trans (le_max_right _ _) hd))
  · have hboth : out ++ outs = content ++ contents ↔ out = content ∧ outs = contents := by
      constructor
      · intro he
        have hlen := congrArg List.length he
        have hle := hsub.length_le
        have hles := hsubs.length_le
        rw [List.length_append, List.length_append] at hlen
        exact List.append_inj he (by omega)
      · rintro ⟨rfl, rfl⟩
        rfl
    rw [hboth, hiff, hiffs]
    simp only [List.mem_cons, Option.some.injEq, forall_eq_or_imp]

mutual

theorem Content.delivered (hserves : Serves store ex) {cid content : Bytes} :
    Content lib store cid content → Delivered ex batch lib store cid content
  | .raw hs hc => delivered_raw hserves hs hc
  | .emptyDirectory hs hc hd hpb hl => delivered_emptyDirectory hserves hs hc hd hpb hl
  | .directory hs hc hd hpb hl h => delivered_directory hserves hs hc hd hpb hl (h.delivered hserves)
  | .file hs hc hd hpb h => delivered_file hserves hs hc hd hpb (h.delivered hserves)
  | .other hs hc hraw hpb => delivered_other hserves hs hc hraw hpb

theorem Contents.delivered (hserves : Serves store ex) {links : List (Option Bytes)} {content : Bytes} :
    Contents lib store links content → DeliveredAll ex batch lib store links content
  | .nil => ⟨0, [], fun _ _ => .nil, .refl [], iff_of_true rfl (by simp)⟩
  | .cons h hs => deliveredAll_cons (h.delivered hserves) (hs.delivered hserves)

end

/-- Deep enough, the recursion ends, and what it yields is the content exactly if all blocks are plain. -/
theorem getFile_delivers_iff (lib : FileLib) (ex : Exchange σ) (batch : Bool) (store : Store)
    (cid content : Bytes) (hserves : Serves store ex) (hcontent : Content lib store cid content) :
    ∃ depth, ∀ d, depth ≤ d → ∀ f,
      Delivers (fetchStream lib ex batch d f cid).2 content ↔ AllPlain lib store cid := by
  have hdelivered : Delivered ex batch lib store cid content := hcontent.delivered hserves
  obtain ⟨depth, out, hyields, -, hiff⟩ := hdelivered
  refine ⟨depth, fun d hd f => ?_⟩
  obtain ⟨hbytes, hends⟩ := hyields d hd f
  rw [delivers_iff, hbytes, ← hiff]
  exact and_iff_left hends

def fileLib : FileLib where
  toDagLib := .ofTable [.rawA, .twiceA, .xThenA]
    [(KnownCid.twiceAData, ⟨[some KnownCid.rawA.bytes, some KnownCid.rawA.bytes], .bytes []⟩),
      (KnownCid.xThenAData, ⟨[some KnownCid.rawA.bytes], .bytes [120]⟩)] [] []
  isDirectoryNode _ := .ok false
  unixfsData
    | .bytes b => b
    | _ => []

def fileStore : Store :=
  ((Dict.empty.set KnownCid.rawA.bytes [97]).set KnownCid.twiceA.bytes KnownCid.twiceAData).set
    KnownCid.xThenA.bytes KnownCid.xThenAData

def storeExchange (store : Store) : Exchange Unit where
  getBlock _ cid _ := ((), .ok (.plain (store.get? cid)))
  getBlocksBatch := none

theorem storeExchange_serves (store : Store) : Serves store (storeExchange store) :=
  fun _ cid _ _ hs => ⟨.plain (store.get? cid), rfl, hs⟩

theorem rawA_content : Content fileLib fileStore KnownCid.rawA.bytes [97] := .raw (by decide) (by decide)

theorem twiceA_content : Content fileLib fileStore KnownCid.twiceA.bytes [97, 97] := by
  have hs : fileStore.get? KnownCid.twiceA.bytes = some KnownCid.twiceAData := by decide
  have hpb : fileLib.decodeDagPb KnownCid.twiceAData =
      .ok ⟨[some KnownCid.rawA.bytes, some KnownCid.rawA.bytes], .bytes []⟩ := rfl
  exact .file hs (by decide) rfl hpb (.cons rawA_content (.cons rawA_content .nil))

theorem xThenA_content : Content fileLib fileStore KnownCid.xThenA.bytes [120, 97] := by
  have hs : fileStore.get? KnownCid.xThenA.bytes = some KnownCid.xThenAData := by decide
  have hpb : fileLib.decodeDagPb KnownCid.xThenAData = .ok ⟨[some KnownCid.rawA.bytes], .bytes [120]⟩ := rfl
  exact .file hs (by decide) rfl hpb (.cons rawA_content .nil)

theorem getFile_delivers_twice : ∃ depth, ∀ d, depth ≤ d → ∀ f,
    Delivers (fetchStream fileLib (storeExchange fileStore) true d f KnownCid.twiceA.bytes).2 [97, 97] ↔
      AllPlain fileLib fileStore KnownCid.twiceA.bytes :=
  getFile_delivers_iff fileLib (storeExchange fileStore) true fileStore KnownCid.twiceA.bytes [97, 97]
    (storeExchange_serves fileStore) twiceA_content

theorem getFile_delivers_fails : ¬∀ (store : Store) (cid content : Bytes), Content fileLib store cid content →
    ∃ depth, ∀ d, depth ≤ d → ∀ f, Delivers (fetchStream fileLib (storeExchange store) true d f cid).2 content := by
  intro hall
  obtain ⟨depth, hdelivers⟩ := hall fileStore KnownCid.xThenA.bytes [120, 97] xThenA_content
  have hdelivered : Delivered (storeExchange fileStore) true fileLib fileStore KnownCid.xThenA.bytes [120, 97] :=
    xThenA_content.delivered (storeExchange_serves fileStore)
  obtain ⟨depth', out, hyields, -, hiff⟩ := hdelivered
  have hbytes := (hyields _ (le_max_right depth depth') ⟨(), none⟩).1
  rw [(hdelivers _ (le_max_left depth depth') ⟨(), none⟩).stream.1] at hbytes
  have hplain := hiff.mp hbytes.symm KnownCid.xThenA.bytes .refl
  have hdata := hplain.file KnownCid.xThenAData ⟨[some KnownCid.rawA.bytes], .bytes [120]⟩ (by decide) (by decide)
    rfl rfl (by decide)
  exact absurd hdata (by decide)

end IpfsLite.Files
