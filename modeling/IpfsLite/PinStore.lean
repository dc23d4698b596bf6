import IpfsLite.Cid
import IpfsLite.Lib.Dict

/-!
`PinStore` over a file system whose writes can fail. A file holds what `json.load` makes of its
text: a document, or an exception.
-/

namespace IpfsLite

inductive Json
  | null
  | bool (b : Bool)
  | int (i : ℤ)
  | float (bits : BitVec 64)
  | str (s : String)
  | arr (items : List Json)
  | obj (members : List (String × Json))

namespace Json

def isBool : Json → Bool
  | .bool _ => true
  | _ => false

def isStr (j : Json) (s : String) : Bool :=
  match j with
  | .str t => t = s
  | _ => false

theorem isStr_iff {j : Json} {s : String} : j.isStr s = true ↔ j = .str s := by
  cases j <;> simp [isStr]

def typeName : Json → String
  | .null => "NoneType"
  | .bool _ => "bool"
  | .int _ => "int"
  | .float _ => "float"
  | .str _ => "str"
  | .arr _ => "list"
  | .obj _ => "dict"

end Json

structure Path where
  parent : List String
  name : List Char
  named : name ≠ []

namespace Path

theorem ext {p q : Path} (hp : p.parent = q.parent) (hn : p.name = q.name) : p = q := by
  cases p
  cases q
  simp_all

instance : DecidableEq Path := fun p q =>
  decidable_of_iff (p.parent = q.parent ∧ p.name = q.name)
    ⟨fun h => ext h.1 h.2, fun h => h ▸ ⟨rfl, rfl⟩⟩

def rfind (c : Char) (cs : List Char) : Option ℕ :=
  (cs.reverse.idxOf? c).map (fun i => cs.length - 1 - i)

def stem (p : Path) : List Char :=
  match rfind '.' p.name with
  | some i => if 0 < i ∧ i < p.name.length - 1 then p.name.take i else p.name
  | none => p.name

def withSuffix (p : Path) (suffix : List Char) (h : suffix ≠ []) : Path :=
  ⟨p.parent, p.stem ++ suffix, by simp [h]⟩

def tmpFile (p : Path) : Path := p.withSuffix ['.', 't', 'm', 'p'] (by simp)

def pinsJson : Path := ⟨["blocks"], "pins.json".toList, by decide⟩

example : pinsJson.tmpFile.name = "pins.tmp".toList := by decide

end Path

inductive FileText
  | doc (value : Json)
  | malformed (e : PyError)

abbrev Files := Path → Option FileText

namespace Files

def replace (fs : Files) (src dst : Path) : Files :=
  if src = dst then fs else Function.update (Function.update fs dst (fs src)) src none

def unlink (fs : Files) (p : Path) (unlinked : Bool) : Files :=
  if unlinked then Function.update fs p none else fs

end Files

/-- A value `_load` leaves in `_pins`: anything but a bool, which it turns into a string. -/
@[ext] structure PinValue where
  val : Json
  notBool : val.isBool = false

abbrev PinMap := Dict String PinValue

namespace PinValue

def ofType (pinType : String) : PinValue := ⟨.str pinType, rfl⟩

def migrate : Json → PinValue
  | .bool true => ofType "recursive"
  | .bool false => ofType "direct"
  | .null => ⟨.null, rfl⟩
  | .int i => ⟨.int i, rfl⟩
  | .float bits => ⟨.float bits, rfl⟩
  | .str s => ⟨.str s, rfl⟩
  | .arr items => ⟨.arr items, rfl⟩
  | .obj members => ⟨.obj members, rfl⟩

@[simp] theorem migrate_val (v : PinValue) : migrate v.1 = v := by
  obtain ⟨v, hv⟩ := v
  cases v <;> first | rfl | simp [Json.isBool] at hv

def isType (v : PinValue) (pinType : String) : Bool := v.1.isStr pinType

theorem isType_iff {v : PinValue} {pinType : String} :
    v.isType pinType = true ↔ v = ofType pinType := by
  rw [isType, Json.isStr_iff, ofType, PinValue.ext_iff]

end PinValue

structure PinStore where
  path : Option Path
  pins : PinMap

namespace PinStore

/-- How reading the pins file goes: it may raise, or the migration loop may stop in the middle. -/
inductive LoadIo
  | ok
  | readFails
  | stopsAt (n : ℕ)

def rawPins : FileText → Except PyError (Dict String Json)
  | .malformed e => .error e
  | .doc (.obj data) =>
    match (Dict.ofList data).get? "pins" with
    | none => .ok .empty
    | some (.obj pins) => .ok (.ofList pins)
    | some v => .error ⟨.attributeError, s!"'{v.typeName}' object has no attribute 'items'"⟩
  | .doc v => .error ⟨.attributeError, s!"'{v.typeName}' object has no attribute 'get'"⟩

def migrateLoop (items : List (String × Json)) : PinMap :=
  items.foldl (fun pins e => pins.set e.1 (PinValue.migrate e.2)) .empty

def load (io : LoadIo) : Option FileText → PinMap
  | none => .empty
  | some text =>
    match io, rawPins text with
    | .readFails, _ | _, .error _ => .empty
    | .ok, .ok raw => migrateLoop raw.entries
    | .stopsAt n, .ok raw => migrateLoop (raw.entries.take n)

def LoadFailed (io : LoadIo) : Option FileText → Prop
  | none => False
  | some text => io ≠ .ok ∨ ∃ e, rawPins text = .error e

def new (io : LoadIo) (path : Option Path) (files : Files) : PinStore :=
  ⟨path, load io (path.bind files)⟩

def dump (pins : PinMap) : FileText :=
  .doc (.obj [("pins", .obj (pins.entries.map (fun e => (e.1, e.2.1))))])

/-- How a call of `_save` goes. A failed write or fsync leaves the temporary file in any state. -/
inductive SaveIo
  | ok
  | mkdirFails (e : PyError)
  | writeFails (left : Option FileText) (unlinked : Bool)
  | replaceFails (unlinked : Bool)

def save (store : PinStore) (io : SaveIo) (files : Files) : Files × Except PyError Unit :=
  match store.path with
  | none => (files, .ok ())
  | some path =>
    let tmp := path.tmpFile
    match io with
    | .mkdirFails e => (files, .error e)
    | .ok => (Files.replace (Function.update files tmp (some (dump store.pins))) tmp path, .ok ())
    | .writeFails left unlinked =>
      (Files.unlink (Function.update files tmp left) tmp unlinked, .ok ())
    | .replaceFails unlinked =>
      (Files.unlink (Function.update files tmp (some (dump store.pins))) tmp unlinked, .ok ())

end PinStore

structure World where
  store : PinStore
  files : Files

inductive PinCall
  | addPin (cidStr pinType : String)
  | removePin (cidStr : String)
deriving DecidableEq

namespace World

open PinStore

variable (lib : CidLib)

def opened (io : LoadIo) (path : Option Path) (files : Files) : World :=
  ⟨PinStore.new io path files, files⟩

def commit (w : World) (io : SaveIo) (pins : PinMap) : World × Except PyError Unit :=
  let store := { w.store with pins := pins }
  let r := store.save io w.files
  (⟨store, r.1⟩, r.2)

def addPin (w : World) (io : SaveIo) (cidStr pinType : String) : World × Except PyError Unit :=
  match lib.parseCid cidStr with
  | .error e => (w, .error e)
  | .ok _ =>
    if pinType ≠ "direct" ∧ pinType ≠ "recursive" then
      (w, .error ⟨.valueError, s!"Invalid pin type: {pinType}"⟩)
    else
      match w.store.pins.get? cidStr with
      | none => w.commit io (w.store.pins.set cidStr (.ofType pinType))
      | some existing =>
        if existing.isType pinType then (w, .ok ())
        else if existing.isType "recursive" ∧ pinType = "direct" then
          (w, .error ⟨.pinError, s!"'{cidStr}' already pinned recursively"⟩)
        else w.commit io (w.store.pins.set cidStr (.ofType pinType))

def removePin (w : World) (io : SaveIo) (cidStr : String) : World × Except PyError Unit :=
  match w.store.pins.get? cidStr with
  | none => (w, .error ⟨.pinNotFoundError, s!"not pinned or pinned indirectly: {cidStr}"⟩)
  | some _ => w.commit io (w.store.pins.erase cidStr)

def exec (w : World) (call : PinCall) (io : SaveIo) : World × Except PyError Unit :=
  match call with
  | .addPin cidStr pinType => w.addPin lib io cidStr pinType
  | .removePin cidStr => w.removePin io cidStr

def isPinned (w : World) (cidStr : String) : Bool := (w.store.pins.get? cidStr).isSome

def getPinType (w : World) (cidStr : String) : Option PinValue := w.store.pins.get? cidStr

def after (w : World) (calls : List (PinCall × SaveIo)) : World :=
  calls.foldl (fun w c => (w.exec lib c.1 c.2).1) w

end World

end IpfsLite
