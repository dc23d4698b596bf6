import Mathlib.Tactic

namespace IpfsLite

inductive ExcType
  | attributeError
  | blockNotFoundError
  | carParseError
  | cborError
  | decodeError
  | eofError
  | indexError
  | osError
  | overflowError
  | payloadTooLargeError
  | pinError
  | pinNotFoundError
  | routingError
  | runtimeError
  | typeError
  | unicodeDecodeError
  | unicodeEncodeError
  | valueError
deriving DecidableEq, Repr

structure PyError where
  type : ExcType
  message : String
deriving DecidableEq, Repr

def ExcType.isValueError : ExcType → Bool
  | .valueError | .unicodeDecodeError | .unicodeEncodeError => true
  | _ => false

theorem bind_ok {ε α β : Type*} {x : Except ε α} {f : α → Except ε β} {b : β} :
    x.bind f = .ok b ↔ ∃ a, x = .ok a ∧ f a = .ok b := by
  cases x <;> simp [Except.bind]

theorem map_ok {ε α β : Type*} {x : Except ε α} {f : α → β} {b : β} :
    x.map f = .ok b ↔ ∃ a, x = .ok a ∧ f a = b := by
  cases x <;> simp [Except.map]

def RaisesOnly {α : Type*} (types : ExcType → Prop) (r : Except PyError α) : Prop :=
  ∀ e, r = .error e → types e.type

section RaisesOnly

variable {α β : Type*} {types : ExcType → Prop}

theorem raisesOnly_ok (a : α) : RaisesOnly types (.ok a) := by
  intro e h
  contradiction

theorem raisesOnly_error {e : PyError} : RaisesOnly types (.error e : Except PyError α) ↔ types e.type := by
  constructor
  · intro h
    exact h e rfl
  · intro h e' he
    obtain rfl := Except.error.inj he
    exact h

theorem raisesOnly_bind {x : Except PyError α} {f : α → Except PyError β} :
    RaisesOnly types (x.bind f) ↔ RaisesOnly types x ∧ ∀ a, x = .ok a → RaisesOnly types (f a) := by
  cases x with
  | error e => simp [Except.bind, raisesOnly_error]
  | ok a => simp [Except.bind, raisesOnly_ok]

theorem RaisesOnly.bind {x : Except PyError α} {f : α → Except PyError β} (hx : RaisesOnly types x)
    (hf : ∀ a, x = .ok a → RaisesOnly types (f a)) : RaisesOnly types (x.bind f) :=
  raisesOnly_bind.mpr ⟨hx, hf⟩

theorem RaisesOnly.map {x : Except PyError α} (f : α → β) (hx : RaisesOnly types x) :
    RaisesOnly types (x.map f) := by
  cases x with
  | error e => exact raisesOnly_error.mpr (raisesOnly_error.mp hx)
  | ok a => exact raisesOnly_ok (f a)

end RaisesOnly

end IpfsLite
