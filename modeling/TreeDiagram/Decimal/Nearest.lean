/-!
The floating point number nearest to a decimal.

A decimal far outside the range of floating point is infinite or zero without being expanded.
-/

namespace TreeDiagram.Decimal

/-- The floating point number nearest to `digits * 10 ^ exponent`, negated if `negative`. -/
def nearest (negative : Bool) (digits : Nat) (exponent : Int) : Float :=
  let place := exponent + (Nat.toDigits 10 digits).length
  let size : Float :=
    if digits = 0 then 0.0
    else if 400 < place then 1.0 / 0.0
    else if place < -400 then 0.0
    else if 0 ≤ exponent then Float.ofScientific digits false exponent.toNat
    else Float.ofScientific digits true (-exponent).toNat
  if negative then -size else size

end TreeDiagram.Decimal
