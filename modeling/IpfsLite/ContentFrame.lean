import IpfsLite.FileContent

namespace IpfsLite.Files

variable {lib : FileLib} {store store' : Store} {cid d content : Bytes}

def SameBelow (lib : FileLib) (store store' : Store) (cid : Bytes) : Prop :=
  ∀ d, Relation.ReflTransGen (ContentLink lib store) cid d → store'.get? d = store.get? d

theorem SameBelow.child (h : SameBelow lib store store' cid) (hlink : ContentLink lib store cid d) :
    SameBelow lib store store' d := fun e he => h e (.head hlink he)

mutual

theorem Content.of_sameBelow {cid content : Bytes} (h : SameBelow lib store store' cid) :
    Content lib store cid content → Content lib store' cid content
  | .raw hs hc => .raw ((h cid .refl).trans hs) hc
  | .emptyDirectory hs hc hd hpb hl => .emptyDirectory ((h cid .refl).trans hs) hc hd hpb hl
  | .directory hs hc hd hpb hl hcontent =>
    .directory ((h cid .refl).trans hs) hc hd hpb hl (hcontent.of_sameBelow (h.child (.directory hs hc hd hpb hl)))
  | .file hs hc hd hpb hcontents => .file ((h cid .refl).trans hs) hc hd hpb
    (hcontents.of_sameBelow fun _ hchild => h.child (.file hs hc hd hpb hchild))
  | .other hs hc hraw hpb => .other ((h cid .refl).trans hs) hc hraw hpb

theorem Contents.of_sameBelow {links : List (Option Bytes)} {contents : Bytes}
    (h : ∀ child, some child ∈ links → SameBelow lib store store' child) :
    Contents lib store links contents → Contents lib store' links contents
  | .nil => .nil
  | .cons hcontent hcontents => .cons (hcontent.of_sameBelow (h _ (List.mem_cons_self ..)))
    (hcontents.of_sameBelow fun child hchild => h child (List.mem_cons_of_mem _ hchild))

end

theorem contentLink_congr (h : store'.get? cid = store.get? cid) :
    ContentLink lib store' cid d ↔ ContentLink lib store cid d := by
  constructor
  · intro hlink
    cases hlink with
    | directory hs hc hd hpb hl => exact .directory (h.symm.trans hs) hc hd hpb hl
    | file hs hc hd hpb hl => exact .file (h.symm.trans hs) hc hd hpb hl
  · intro hlink
    cases hlink with
    | directory hs hc hd hpb hl => exact .directory (h.trans hs) hc hd hpb hl
    | file hs hc hd hpb hl => exact .file (h.trans hs) hc hd hpb hl

theorem plain_congr (h : store'.get? cid = store.get? cid) : Plain lib store' cid ↔ Plain lib store cid := by
  constructor
  · exact fun hp => ⟨fun data pb hs => hp.file data pb (h.trans hs), fun data codec hs => hp.other data codec (h.trans hs)⟩
  · intro hp
    exact ⟨fun data pb hs => hp.file data pb (h.symm.trans hs), fun data codec hs => hp.other data codec (h.symm.trans hs)⟩

theorem SameBelow.reach_iff (h : SameBelow lib store store' cid) :
    Relation.ReflTransGen (ContentLink lib store') cid d ↔ Relation.ReflTransGen (ContentLink lib store) cid d := by
  constructor
  · intro hd
    induction hd with
    | refl => exact .refl
    | tail _ hlink ih => exact ih.tail ((contentLink_congr (h _ ih)).mp hlink)
  · intro hd
    induction hd with
    | refl => exact .refl
    | tail hm hlink ih => exact ih.tail ((contentLink_congr (h _ hm)).mpr hlink)

theorem SameBelow.allPlain_iff (h : SameBelow lib store store' cid) :
    AllPlain lib store' cid ↔ AllPlain lib store cid := by
  unfold AllPlain
  refine forall_congr' fun d => ?_
  rw [h.reach_iff]
  exact imp_congr_right fun hd => plain_congr (h d hd)

def Downloads (lib : FileLib) (store : Store) (cid content : Bytes) (plain : Prop) : Prop :=
  ∀ (σ : Type) (ex : Exchange σ) (batch : Bool), Serves store ex → ∃ depth, ∀ d, depth ≤ d → ∀ f,
    Delivers (fetchStream lib ex batch d f cid).2 content ↔ plain

theorem Content.downloads (h : Content lib store cid content) :
    Downloads lib store cid content (AllPlain lib store cid) := by
  intro σ ex batch hserves
  have hdelivered : Delivered ex batch lib store cid content := h.delivered hserves
  obtain ⟨depth, out, hyields, -, hiff⟩ := hdelivered
  refine ⟨depth, fun d hd f => ?_⟩
  obtain ⟨hbytes, hends⟩ := hyields d hd f
  rw [delivers_iff, hbytes, ← hiff]
  exact and_iff_left hends

theorem SameBelow.downloads (h : SameBelow lib store store' cid) (hcontent : Content lib store cid content) :
    Downloads lib store' cid content (AllPlain lib store cid) := by
  rw [← h.allPlain_iff]
  exact (hcontent.of_sameBelow h).downloads

theorem ContentLink.mem_blockLinks (hpb : ∀ codec, lib.normaliseCodec "dag-pb" = .ok codec → codec.isDagPb = true)
    (h : ContentLink lib store cid d) {data : Bytes} (hs : store.get? cid = some data) {cs : List Bytes}
    (hcs : blockLinks lib.toDagLib false cid data = .ok cs) : d ∈ cs := by
  have hlinks (pb : DagPb) (hc : lib.parseCidCodec cid = .ok "dag-pb") (hdecode : lib.decodeDagPb data = .ok pb) :
      pb.links.filterMap id = cs := by
    unfold blockLinks at hcs
    obtain ⟨codec, hcodec, hcs⟩ := bind_ok.mp hcs
    obtain rfl := Except.ok.inj (hc.symm.trans hcodec)
    obtain ⟨normCodec, hnorm, hcs⟩ := bind_ok.mp hcs
    rw [if_pos (hpb normCodec hnorm), hdecode] at hcs
    exact Except.ok.inj hcs
  cases h with
  | directory hs' hc _ hdecode hl =>
    obtain rfl := Option.some.inj (hs.symm.trans hs')
    rw [← hlinks _ hc hdecode, hl]
    simp
  | file hs' hc _ hdecode hl =>
    obtain rfl := Option.some.inj (hs.symm.trans hs')
    rw [← hlinks _ hc hdecode]
    exact List.mem_filterMap.mpr ⟨some d, hl, rfl⟩

end IpfsLite.Files
