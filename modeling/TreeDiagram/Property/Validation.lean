import TreeDiagram.Property.Basic
import TreeDiagram.Text.Numeral
/-!
Raw texts turned into values of a property.

Validation happens once, when a text is read. Whoever holds a validated value relies on its rule and
does not check it again.
-/

namespace TreeDiagram

/-- Why a text is no value of a property. -/
inductive PropertyError where
  | unknownName (name : String)
  | notANumber (raw : String)
  | outOfRange (value min max : Nat)
  | tooLarge (raw : String)
  | badLength (length min max : Nat)
  deriving DecidableEq, Repr

namespace PropertyError

/-- The wording of an error. -/
def message : PropertyError → String
  | unknownName name => s!"unknown property '{name}'"
  | notANumber raw => s!"'{raw}' is not a decimal or 0x-prefixed hexadecimal number"
  | outOfRange value min max => s!"{value} is outside the range {min}..={max}"
  | tooLarge raw => s!"'{raw}' does not fit in 32 bits"
  | badLength length min max => s!"length {length} is outside the range {min}..={max}"

end PropertyError

/-- A numeral of any length whose value fits in 32 bits. -/
def readUnsigned (raw : String) : Except PropertyError Nat :=
  match Numeral.read? raw.toList with
  | none => .error (.notANumber raw)
  | some n => if n ≤ maxWord then .ok n else .error (.tooLarge raw)

/-- The value that a text has under a rule. -/
def Rule.validate (raw : String) : Rule → Except PropertyError Value
  | .range min max => do
    let n ← readUnsigned raw
    if n < min ∨ max < n then .error (.outOfRange n min max) else .ok (.number n)
  | .length min max =>
    let length := raw.utf8ByteSize
    if length < min ∨ max < length then .error (.badLength length min max) else .ok (.text raw)

namespace Property

/-- The value that a text gives to a property. -/
def validate (p : Property) (raw : String) : Except PropertyError Value :=
  p.rule.validate raw

/-- The property of a name together with the value that a text gives to it. -/
def validateNamed (name raw : String) : Except PropertyError (Property × Value) :=
  match ofName? name with
  | none => .error (.unknownName name)
  | some p => (p.validate raw).map fun v => (p, v)

end Property

end TreeDiagram
