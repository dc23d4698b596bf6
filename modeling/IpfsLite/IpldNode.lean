import IpfsLite.Ipns
import IpfsLite.PyInt

/-!
`encode_node` and what `add_node` makes of its bytes. `json.dumps` is written out but for the `repr`
of a finite float; `cbor2` and the making of CIDs are parameters.
-/

namespace IpfsLite.Ipld

open Ipns PyInt

def isFinite (bits : BitVec 64) : Bool := (PyValue.floatNumber bits).isSome

abbrev FiniteFloat := { bits : BitVec 64 // isFinite bits }

structure IpldLib where
  floatRepr : FiniteFloat → String
  typeName : PyValue → String
  cborDumps : PyValue → Except PyError Bytes
  computeCidV1 : Bytes → String → Except PyError Bytes
  formatCidForDisplay : Bytes → String

def nonFiniteStr (bits : BitVec 64) : String :=
  if bits.toNat % 2 ^ 52 ≠ 0 then "nan" else if bits.msb then "-inf" else "inf"

def outOfRange (bits : BitVec 64) : PyError :=
  ⟨.valueError, s!"Out of range float values are not JSON compliant: {nonFiniteStr bits}"⟩

mutual

def checkNan : PyValue → Except PyError Unit
  | .float bits => if isFinite bits then .ok () else .error (outOfRange bits)
  | .dict items => checkNanValues items
  | .list items => checkNanItems items
  | _ => .ok ()

def checkNanItems : List PyValue → Except PyError Unit
  | [] => .ok ()
  | v :: vs => do
    checkNan v
    checkNanItems vs

def checkNanValues : List (PyValue × PyValue) → Except PyError Unit
  | [] => .ok ()
  | (_, v) :: es => do
    checkNan v
    checkNanValues es

end

mutual

def convertIpldNodes : PyValue → PyValue
  | .ipldNode cidStr => .str cidStr
  | .dict items => .dict (convertValues items)
  | .list items => .list (convertItems items)
  | v => v

def convertItems : List PyValue → List PyValue
  | [] => []
  | v :: vs => convertIpldNodes v :: convertItems vs

def convertValues : List (PyValue × PyValue) → List (PyValue × PyValue)
  | [] => []
  | (k, v) :: es => (k, convertIpldNodes v) :: convertValues es

end

section JsonDumps

def shortEscape : Char → Option Char
  | '"' => some '"'
  | '\\' => some '\\'
  | '\n' => some 'n'
  | '\r' => some 'r'
  | '\t' => some 't'
  | '\x0c' => some 'f'
  | '\x08' => some 'b'
  | _ => none

def unit (n : ℕ) : List Char :=
  ['\\', 'u', Nat.digitChar (n / 4096), Nat.digitChar (n / 256 % 16), Nat.digitChar (n / 16 % 16),
    Nat.digitChar (n % 16)]

def codeUnits (n : ℕ) : List ℕ :=
  if n < 0x10000 then [n] else [0xD800 + (n - 0x10000) / 1024, 0xDC00 + (n - 0x10000) % 1024]

def escape : CodePoint → List Char
  | .char c =>
    match shortEscape c with
    | some e => ['\\', e]
    | none => if ' ' ≤ c ∧ c ≤ '~' then [c] else (codeUnits c.toNat).flatMap unit
  | .surrogate n => unit (0xD800 + n.val)

def encodeBasestringAscii (s : PyStr) : List Char := '"' :: (s.codePoints.flatMap escape ++ ['"'])

variable (lib : IpldLib)

def floatStr (bits : BitVec 64) : Except PyError String :=
  if h : isFinite bits then .ok (lib.floatRepr ⟨bits, h⟩) else .error (outOfRange bits)

def boolStr (b : Bool) : String := if b then "true" else "false"

def jsonKey : PyValue → Except PyError PyStr
  | .str s => .ok s
  | .float bits => (floatStr lib bits).map .text
  | .bool b => .ok (boolStr b)
  | .none => .ok "null"
  | .int i => (str i).map .text
  | k => .error ⟨.typeError, s!"keys must be str, int, float, bool or None, not {lib.typeName k}"⟩

mutual

def jsonText : PyValue → Except PyError (List Char)
  | .none => .ok "null".toList
  | .bool b => .ok (boolStr b).toList
  | .int i => (str i).map String.toList
  | .float bits => (floatStr lib bits).map String.toList
  -- an `IPLDNode` is written by the encoder's `default`
  | .str s => .ok (encodeBasestringAscii s)
  | .ipldNode s => .ok (encodeBasestringAscii s)
  | .list items | .tuple items => do
    let texts ← jsonTexts items
    .ok ('[' :: ([','].intercalate texts ++ [']']))
  | .dict items => do
    let texts ← jsonItems items
    .ok ('{' :: ([','].intercalate texts ++ ['}']))
  | v => .error ⟨.typeError, s!"Object of type {lib.typeName v} is not JSON serializable"⟩

def jsonTexts : List PyValue → Except PyError (List (List Char))
  | [] => .ok []
  | v :: vs => do
    let text ← jsonText v
    let texts ← jsonTexts vs
    .ok (text :: texts)

def jsonItems : List (PyValue × PyValue) → Except PyError (List (List Char))
  | [] => .ok []
  | (k, v) :: es => do
    let key ← jsonKey lib k
    let text ← jsonText v
    let texts ← jsonItems es
    .ok ((encodeBasestringAscii key ++ ':' :: text) :: texts)

end

def jsonDumps (node : PyValue) : Except PyError String := (jsonText lib node).map String.ofList

end JsonDumps

variable (lib : IpldLib)

def encodeNode (node : PyValue) (codec : String) : Except PyError Bytes := do
  if codec = "dag-json" ∨ codec = "dag-cbor" ∨ codec = "cbor" then checkNan node
  if codec = "dag-json" then (jsonDumps lib node).map encodeUtf8
  else if codec = "dag-cbor" ∨ codec = "cbor" then lib.cborDumps (convertIpldNodes node)
  else if codec = "raw" then
    match node with
    | .bytes b => .ok b
    | .str (.text s) => .ok (encodeUtf8 s)
    | .str (.surrogates _) => .error ⟨.unicodeEncodeError, "'utf-8' codec cannot encode characters"⟩
    | _ => .error ⟨.typeError, "The 'raw' codec only supports bytes or str inputs"⟩
  else .error ⟨.valueError, s!"Unsupported codec for encode_node: {codec}"⟩

structure AddedNode where
  cid : Bytes
  data : Bytes
  node : PyValue

def addNode (node : PyValue) (codec : String) : Except PyError AddedNode := do
  let data ← encodeNode lib node codec
  let cid ← lib.computeCidV1 data codec
  .ok ⟨cid, data, .ipldNode (lib.formatCidForDisplay cid)⟩

end IpfsLite.Ipld
