import TreeDiagram.Decimal.Rounding
/-!
The exact value of a binary floating point number.

A finite number is a whole number of units, each a power of two, with a sign of its own so that
zero keeps its sign. Texts and lengths are computed from these whole numbers, never from the
floating point number itself.
-/

namespace TreeDiagram.Decimal

/-- What a 64-bit floating point number stands for. -/
inductive Binary where
  /-- The number `units * 2 ^ scale`, negated if `negative`. -/
  | finite (negative : Bool) (units : Nat) (scale : Int)
  | infinite (negative : Bool)
  | undefined
  deriving DecidableEq, Repr

namespace Binary

/-- The value of 64 bits: a sign, eleven bits of exponent and 52 bits of fraction. -/
def ofBits (bits : Nat) : Binary :=
  let negative := bits / Nat.pow 2 63 % 2 = 1
  let exponent : Nat := bits / Nat.pow 2 52 % Nat.pow 2 11
  let fraction : Nat := bits % Nat.pow 2 52
  if exponent = 2047 then
    if fraction = 0 then .infinite negative else .undefined
  else if exponent = 0 then .finite negative fraction (-1074)
  else .finite negative (Nat.pow 2 52 + fraction) ((exponent : Int) - 1075)

/-- The value of a floating point number. -/
def ofFloat (x : Float) : Binary :=
  ofBits x.toBits.toNat

/-- A magnitude `units * 2 ^ scale` as a quotient of natural numbers. -/
def ratio (units : Nat) (scale : Int) : Nat × Nat :=
  if 0 ≤ scale then (units * Nat.pow 2 scale.toNat, 1) else (units, Nat.pow 2 (-scale).toNat)

/-- The magnitude `units * 2 ^ scale` in units of `10 ^ (-places)`, to the nearest whole number
and on a tie to the even one. -/
def scaled (places units : Nat) (scale : Int) : Nat :=
  let (num, den) := ratio units scale
  roundHalfEven (num * Nat.pow 10 places) den

end Binary

end TreeDiagram.Decimal
