import IpfsLite.PyEquality
import IpfsLite.PyInt

/-!
`json.loads` of Python. `parseFloat` is `float` of the text of a number. An error is told without its
position.
-/

namespace IpfsLite.PyJson

def decodeError (message : String) : PyError := ⟨.valueError, message⟩

def isBlank (c : Char) : Bool := c ∈ [' ', '\t', '\n', '\r']

def skipBlanks (cs : List Char) : List Char := cs.dropWhile isBlank

section Strings

def hexValue (c : Char) : Option ℕ :=
  if c.isDigit then some (c.toNat - 48)
  else if 'a' ≤ c ∧ c ≤ 'f' then some (c.toNat - 87)
  else if 'A' ≤ c ∧ c ≤ 'F' then some (c.toNat - 55)
  else none

def hexNumber (a b c d : Char) : Option ℕ := do
  let a ← hexValue a
  let b ← hexValue b
  let c ← hexValue c
  let d ← hexValue d
  some (a * 4096 + b * 256 + c * 16 + d)

def decodeUnit : List Char → Except PyError (ℕ × List Char)
  | a :: b :: c :: d :: cs =>
    match hexNumber a b c d with
    | some unit => .ok (unit, cs)
    | none => .error (decodeError "Invalid \\uXXXX escape")
  | _ => .error (decodeError "Invalid \\uXXXX escape")

def chr (code : ℕ) : CodePoint :=
  if h : 0xD800 ≤ code ∧ code ≤ 0xDFFF then .surrogate ⟨code - 0xD800, by omega⟩ else .char (Char.ofNat code)

/-- A code point after `\u`, with the second half of a surrogate pair. -/
def decodeUnits (cs : List Char) : Except PyError (CodePoint × List Char) := do
  let (unit, cs) ← decodeUnit cs
  match cs with
  | '\\' :: 'u' :: rest =>
    if 0xD800 ≤ unit ∧ unit ≤ 0xDBFF then
      let (low, rest) ← decodeUnit rest
      if 0xDC00 ≤ low ∧ low ≤ 0xDFFF then
        .ok (chr (0x10000 + (unit - 0xD800) * 1024 + (low - 0xDC00)), rest)
      else .ok (chr unit, cs)
    else .ok (chr unit, cs)
  | _ => .ok (chr unit, cs)

def backslash : Char → Option Char
  | '"' => some '"'
  | '\\' => some '\\'
  | '/' => some '/'
  | 'b' => some '\x08'
  | 'f' => some '\x0c'
  | 'n' => some '\n'
  | 'r' => some '\r'
  | 't' => some '\t'
  | _ => none

def scanEscape : List Char → Except PyError (CodePoint × List Char)
  | [] => .error (decodeError "Unterminated string starting at")
  | 'u' :: cs => decodeUnits cs
  | e :: cs =>
    match backslash e with
    | some c => .ok (.char c, cs)
    | none => .error (decodeError "Invalid \\escape")

/-- The next code point of a string, or nothing at its end. -/
def scanChar : List Char → Except PyError (Option CodePoint × List Char)
  | [] => .error (decodeError "Unterminated string starting at")
  | '"' :: cs => .ok (none, cs)
  | '\\' :: cs => (scanEscape cs).map fun p => (some p.1, p.2)
  | c :: cs => if c < ' ' then .error (decodeError "Invalid control character at") else .ok (some (.char c), cs)

/-- A string has no more code points than its text has characters. -/
def scanChars : ℕ → List Char → Except PyError (List CodePoint × List Char)
  | 0, _ => .error (decodeError "Unterminated string starting at")
  | n + 1, cs => do
    let (c, cs) ← scanChar cs
    match c with
    | none => .ok ([], cs)
    | some c => (scanChars n cs).map fun p => (c :: p.1, p.2)

def scanString (cs : List Char) : Except PyError (PyStr × List Char) :=
  (scanChars cs.length cs).map fun p => (.ofCodePoints p.1, p.2)

end Strings

section Numbers

def matchWhole : List Char → Option (List Char × List Char)
  | '0' :: cs => some (['0'], cs)
  | c :: cs => if c.isDigit then some (c :: cs.takeWhile Char.isDigit, cs.dropWhile Char.isDigit) else none
  | [] => none

def matchInteger : List Char → Option (List Char × List Char)
  | '-' :: cs => (matchWhole cs).map fun p => ('-' :: p.1, p.2)
  | cs => matchWhole cs

def matchFrac : List Char → List Char × List Char
  | '.' :: cs =>
    if cs.takeWhile Char.isDigit = [] then ([], '.' :: cs)
    else ('.' :: cs.takeWhile Char.isDigit, cs.dropWhile Char.isDigit)
  | cs => ([], cs)

def matchSign : List Char → List Char × List Char
  | '-' :: cs => (['-'], cs)
  | '+' :: cs => (['+'], cs)
  | cs => ([], cs)

def matchExp : List Char → List Char × List Char
  | [] => ([], [])
  | c :: cs =>
    let (sign, rest) := matchSign cs
    if (c = 'e' ∨ c = 'E') ∧ rest.takeWhile Char.isDigit ≠ [] then
      (c :: (sign ++ rest.takeWhile Char.isDigit), rest.dropWhile Char.isDigit)
    else ([], c :: cs)

structure NumberMatch where
  integer : List Char
  frac : List Char
  exp : List Char
  rest : List Char

/-- `NUMBER_RE` -/
def matchNumber (cs : List Char) : Option NumberMatch :=
  (matchInteger cs).map fun p =>
    let q := matchFrac p.2
    let r := matchExp q.2
    ⟨p.1, q.1, r.1, r.2⟩

end Numbers

variable (parseFloat : List Char → BitVec 64)

def NumberMatch.value (m : NumberMatch) : Except PyError PyValue :=
  if m.frac = [] ∧ m.exp = [] then (PyInt.int id (String.ofList m.integer)).map .int
  else .ok (.float (parseFloat (m.integer ++ m.frac ++ m.exp)))

def words : List (List Char × PyValue) :=
  [("null".toList, .none), ("true".toList, .bool true), ("false".toList, .bool false),
    ("NaN".toList, .float 0x7FF8000000000000), ("Infinity".toList, .float 0x7FF0000000000000),
    ("-Infinity".toList, .float 0xFFF0000000000000)]

def scanAtom (cs : List Char) : Except PyError (PyValue × List Char) :=
  match matchNumber cs with
  | some m => (m.value parseFloat).map (·, m.rest)
  | none =>
    match words.find? (fun w => w.1.isPrefixOf cs) with
    | some w => .ok (w.2, cs.drop w.1.length)
    | none => .error (decodeError "Expecting value")

mutual

/-- The first argument is more than the characters that are left, so it does not run out. -/
def scanOnce : ℕ → List Char → Except PyError (PyValue × List Char)
  | 0, _ => .error (decodeError "Expecting value")
  | n + 1, cs =>
    match cs with
    | '"' :: cs => (scanString cs).map fun p => (.str p.1, p.2)
    | '{' :: cs =>
      match skipBlanks cs with
      | '}' :: cs => .ok (.dict [], cs)
      | cs => (scanMembers n cs).map fun p => (.dict (PyValue.dictOf p.1), p.2)
    | '[' :: cs =>
      match skipBlanks cs with
      | ']' :: cs => .ok (.list [], cs)
      | cs => (scanItems n cs).map fun p => (.list p.1, p.2)
    | cs => scanAtom parseFloat cs

def scanItems : ℕ → List Char → Except PyError (List PyValue × List Char)
  | 0, _ => .error (decodeError "Expecting value")
  | n + 1, cs => do
    let (v, cs) ← scanOnce n cs
    match skipBlanks cs with
    | ']' :: cs => .ok ([v], cs)
    | ',' :: cs => (scanItems n (skipBlanks cs)).map fun p => (v :: p.1, p.2)
    | _ => .error (decodeError "Expecting ',' delimiter")

def scanMembers : ℕ → List Char → Except PyError (List (PyValue × PyValue) × List Char)
  | 0, _ => .error (decodeError "Expecting property name enclosed in double quotes")
  | n + 1, cs =>
    match cs with
    | '"' :: cs => do
      let (key, cs) ← scanString cs
      match skipBlanks cs with
      | ':' :: cs => do
        let (v, cs) ← scanOnce n (skipBlanks cs)
        match skipBlanks cs with
        | '}' :: cs => .ok ([(.str key, v)], cs)
        | ',' :: cs => (scanMembers n (skipBlanks cs)).map fun p => ((.str key, v) :: p.1, p.2)
        | _ => .error (decodeError "Expecting ',' delimiter")
      | _ => .error (decodeError "Expecting ':' delimiter")
    | _ => .error (decodeError "Expecting property name enclosed in double quotes")

end

def jsonLoads (s : String) : Except PyError PyValue :=
  if s.toList.head? = some '\uFEFF' then
    .error (decodeError "Unexpected UTF-8 BOM (decode using utf-8-sig)")
  else do
    let (v, cs) ← scanOnce parseFloat (s.toList.length + 1) (skipBlanks s.toList)
    if skipBlanks cs = [] then .ok v else .error (decodeError "Extra data")

end IpfsLite.PyJson
