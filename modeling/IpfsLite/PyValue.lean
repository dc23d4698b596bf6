import IpfsLite.Cid
import IpfsLite.PyStr
import Mathlib.Data.Rat.Cast.Order

/-!
The Python values that the decoders return. A dictionary is the list of its items; `number` is a
`Decimal` or a `Fraction`, and `object` is a value of a type the repository does not look into.
-/

namespace IpfsLite

inductive PyValue
  | none
  | bool (b : Bool)
  | int (i : ℤ)
  | float (bits : BitVec 64)
  | number (q : ℚ)
  | str (s : PyStr)
  | bytes (b : Bytes)
  | list (items : List PyValue)
  | tuple (items : List PyValue)
  | set (items : List PyValue)
  | dict (items : List (PyValue × PyValue))
  | cborTag (tag : ℕ) (value : PyValue)
  | ipldNode (cidStr : String)
  | object (type : String)

/-- What Python does with a value of a type that has no constructor here. -/
structure PyLib where
  str : PyValue → String
  iterOther : PyValue → Except PyError (List PyValue)
  getOther : PyValue → String → Except PyError (Option PyValue)

def PyLib.builtins : PyLib where
  str _ := "object"
  iterOther _ := .error ⟨.typeError, "object is not iterable"⟩
  getOther _ _ := .error ⟨.attributeError, "object has no attribute get"⟩

namespace PyValue

def floatNumber (bits : BitVec 64) : Option ℚ :=
  let sign : ℚ := if bits.msb then -1 else 1
  let exponent : ℕ := bits.toNat / 2 ^ 52 % 2048
  let fraction : ℕ := bits.toNat % 2 ^ 52
  if exponent = 2047 then Option.none
  else if exponent = 0 then some (sign * fraction / 2 ^ 1074)
  else some (sign * (2 ^ 52 + fraction) * 2 ^ exponent / 2 ^ 1075)

def number? : PyValue → Option ℚ
  | .bool b => some (if b then 1 else 0)
  | .int i => some i
  | .float bits => floatNumber bits
  | .number q => some q
  | _ => Option.none

def eqInt (v : PyValue) (i : ℤ) : Bool := v.number? = some (i : ℚ)

def eqBytes (v : PyValue) (b : Bytes) : Bool :=
  match v with
  | .bytes b' => b' = b
  | _ => false

theorem eqInt_inj {v : PyValue} {i j : ℤ} (hi : v.eqInt i) (hj : v.eqInt j) : i = j := by
  simp only [eqInt, decide_eq_true_eq] at hi hj
  exact_mod_cast Option.some.inj (hi.symm.trans hj)

theorem eqBytes_inj {v : PyValue} {b c : Bytes} (hb : v.eqBytes b) (hc : v.eqBytes c) : b = c := by
  cases v <;> simp_all [eqBytes]

def isStr (key : String) : PyValue → Bool
  | .str s => s = key
  | _ => false

def lookup (key : String) (items : List (PyValue × PyValue)) : Option PyValue :=
  (items.find? (fun e => e.1.isStr key)).map Prod.snd

def get (lib : PyLib) (v : PyValue) (key : String) : Except PyError (Option PyValue) :=
  match v with
  | .dict items => .ok (lookup key items)
  | v => lib.getOther v key

def iter (lib : PyLib) : PyValue → Except PyError (List PyValue)
  | .list items | .tuple items | .set items => .ok items
  | .dict items => .ok (items.map Prod.fst)
  | .str s => .ok (s.codePoints.map fun c => .str (.ofCodePoints [c]))
  | .bytes b => .ok (b.map fun c => .int c.toNat)
  | v => lib.iterOther v

def dropFirst : PyValue → Except PyError PyValue
  | .bytes b => .ok (.bytes (b.drop 1))
  | .str s => .ok (.str (.ofCodePoints (s.codePoints.drop 1)))
  | .list items => .ok (.list (items.drop 1))
  | .tuple items => .ok (.tuple (items.drop 1))
  | _ => .error ⟨.typeError, "object is not subscriptable"⟩

end PyValue

end IpfsLite
