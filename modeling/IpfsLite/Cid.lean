import IpfsLite.Exceptions

/-!
The part of `libp2p.bitswap.cid` that the repository calls. It is not in this repository, so it
is a parameter: `str` and `isDagPb` of a codec are what the code looks at in the result of
`_normalise_codec`.
-/

namespace IpfsLite

abbrev Bytes := List UInt8

structure Codec where
  str : String
  isDagPb : Bool
deriving DecidableEq, Repr

structure CidLib where
  Cid : Type
  parseCid : String → Except PyError Cid
  parseCidBytes : Bytes → Except PyError Cid
  cidToBytes : Cid → Bytes
  formatCidForDisplay : Cid → String
  parseCidCodec : Bytes → Except PyError String
  normaliseCodec : String → Except PyError Codec
  multihash : Cid → Bytes

structure KnownCid where
  str : String
  bytes : Bytes
  codec : String
  multihash : Bytes

def sha256A : Bytes :=
  [18, 32, 202, 151, 129, 18, 202, 27, 189, 202, 250, 194, 49, 179, 154, 35, 220, 77, 167, 134, 239,
    248, 20, 124, 78, 114, 185, 128, 119, 133, 175, 238, 72, 187]

def sha256B : Bytes :=
  [18, 32, 62, 35, 232, 22, 0, 57, 89, 74, 51, 137, 79, 101, 100, 225, 177, 52, 139, 189, 122, 0, 136,
    212, 44, 74, 203, 115, 238, 174, 213, 156, 0, 157]

def sha256LinkToA : Bytes :=
  [18, 32, 123, 215, 12, 154, 60, 159, 101, 107, 19, 39, 52, 255, 28, 84, 209, 54, 23, 41, 164, 69, 165,
    133, 187, 195, 15, 242, 0, 74, 210, 34, 69, 168]

def sha256Truncated : Bytes :=
  [18, 32, 69, 43, 161, 221, 239, 128, 36, 108, 72, 190, 118, 144, 25, 60, 118, 193, 214, 17, 133, 144,
    107, 233, 64, 16, 20, 254, 20, 241, 190, 100, 183, 79]

def sha256TwiceA : Bytes :=
  [18, 32, 203, 195, 222, 128, 185, 217, 174, 59, 158, 173, 60, 13, 103, 196, 30, 63, 172, 14, 199, 13, 166,
    242, 112, 114, 159, 230, 109, 35, 60, 118, 26, 55]

def sha256XThenA : Bytes :=
  [18, 32, 1, 236, 90, 229, 249, 190, 139, 210, 213, 153, 133, 172, 57, 114, 236, 212, 207, 104, 246, 243, 76,
    53, 198, 215, 167, 96, 188, 31, 56, 3, 238, 123]

namespace KnownCid

def rawA : KnownCid :=
  ⟨"bafkreigks6arfsq3xxfpvqrrwonchxcnu6do76auprhhfomao6c273sixm", [1, 85] ++ sha256A, "raw", sha256A⟩

def rawB : KnownCid :=
  ⟨"bafkreib6epubmabzlffdhckpmvsodmjuro6xuaei2qwevs3t52xnlhaatu", [1, 85] ++ sha256B, "raw", sha256B⟩

def linkToA : KnownCid :=
  ⟨"bafyreid324gjupe7mvvrgjzu74ofjujwc4u2irnfqw54gd7sabfneisfva", [1, 113] ++ sha256LinkToA, "dag-cbor",
    sha256LinkToA⟩

/-- The dag-cbor block `18`, which ends inside its first value. -/
def truncated : KnownCid :=
  ⟨"bafyreicffoq5334aerwerptwsamty5wb2yiyledl5fabafh6cty34zfxj4", [1, 113] ++ sha256Truncated,
    "dag-cbor", sha256Truncated⟩

def linkToAData : Bytes := [216, 42, 88, 37, 0] ++ rawA.bytes

/-- A UnixFS file of two links to `rawA`. -/
def twiceA : KnownCid :=
  ⟨"bafybeiglyppiboozvy5z5lj4bvt4ihr7vqhmodng6jyhfh7gnurty5q2g4", [1, 112] ++ sha256TwiceA, "dag-pb",
    sha256TwiceA⟩

def pbLinkToA : Bytes := [18, 42, 10, 36] ++ rawA.bytes ++ [18, 0, 24, 1]

def twiceAData : Bytes := pbLinkToA ++ pbLinkToA ++ [10, 8, 8, 2, 24, 2, 32, 1, 32, 1]

/-- A UnixFS file of the byte `x` and a link to `rawA`. -/
def xThenA : KnownCid :=
  ⟨"bafybeiab5rnol6n6rpjnlgmfvq4xf3guz5upn42mgxdnpj3axqptqa7opm", [1, 112] ++ sha256XThenA, "dag-pb",
    sha256XThenA⟩

def xThenAData : Bytes := pbLinkToA ++ [10, 9, 8, 2, 18, 1, 120, 24, 2, 32, 1]

end KnownCid

def CidLib.ofTable (table : List KnownCid) : CidLib where
  Cid := KnownCid
  parseCid s :=
    match table.find? (fun row => row.str = s) with
    | some row => .ok row
    | none => .error ⟨.valueError, s!"Invalid CID string: {s}"⟩
  parseCidBytes b :=
    match table.find? (fun row => row.bytes = b) with
    | some row => .ok row
    | none => .error ⟨.valueError, "Invalid CID bytes"⟩
  cidToBytes row := row.bytes
  formatCidForDisplay row := row.str
  parseCidCodec b :=
    match table.find? (fun row => row.bytes = b) with
    | some row => .ok row.codec
    | none => .error ⟨.valueError, "Invalid CID bytes"⟩
  normaliseCodec codec := .ok ⟨codec, codec = "dag-pb"⟩
  multihash row := row.multihash

section Table

variable {table : List KnownCid} {row : KnownCid}

theorem ofTable_parseCid {s : String} (h : (CidLib.ofTable table).parseCid s = .ok row) :
    row ∈ table ∧ row.str = s := by
  simp only [CidLib.ofTable] at h
  split at h
  · next row' hfind =>
    obtain rfl := Except.ok.inj h
    have hp := List.find?_some hfind
    exact ⟨List.mem_of_find?_eq_some hfind, of_decide_eq_true hp⟩
  · contradiction

theorem ofTable_parseCidBytes {b : Bytes} (h : (CidLib.ofTable table).parseCidBytes b = .ok row) :
    row ∈ table ∧ row.bytes = b := by
  simp only [CidLib.ofTable] at h
  split at h
  · next row' hfind =>
    obtain rfl := Except.ok.inj h
    have hp := List.find?_some hfind
    exact ⟨List.mem_of_find?_eq_some hfind, of_decide_eq_true hp⟩
  · contradiction

theorem ofTable_normaliseCodec {s : String} {codec : Codec}
    (h : (CidLib.ofTable table).normaliseCodec s = .ok codec) :
    codec.isDagPb = true ↔ codec.str = "dag-pb" := by
  obtain rfl : (⟨s, s = "dag-pb"⟩ : Codec) = codec := Except.ok.inj h
  exact decide_eq_true_iff

end Table

end IpfsLite
