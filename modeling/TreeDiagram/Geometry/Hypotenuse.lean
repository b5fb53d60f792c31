import TreeDiagram.Decimal.Binary
/-!
The length of a hypotenuse, correctly rounded.

The squares of both legs are added exactly, over the smaller of their two scales. The whole square
root of that sum, with enough bits and one more that records whether anything was cut off, is then
rounded once.
-/

namespace TreeDiagram.Geometry

open TreeDiagram.Decimal

/-- The floating point number `2 ^ exponent`, if it is a normal one. -/
def powerOfTwo (exponent : Int) : Float :=
  Float.ofBits (UInt64.ofNat ((exponent + 1023).toNat * Nat.pow 2 52))

/-- The floating point number nearest to `units * 2 ^ scale`, for at most `2 ^ 53` units. Half of
the scale comes first, which rounds nothing: the power for the whole of it may be no normal number.
-/
def scaled (units : Nat) (scale : Int) : Float :=
  Float.ofNat units * powerOfTwo (scale / 2) * powerOfTwo (scale - scale / 2)

/-- The floating point number nearest to `units * 2 ^ scale`. -/
def nearestBinary (units : Nat) (scale : Int) : Float :=
  let cut := Nat.log2 units + 1 - 53
  scaled (roundHalfEven units (Nat.pow 2 cut)) (scale + cut)

/-- The square root of `units * 4 ^ scale`, rounded to the nearest floating point number. -/
def nearestSqrt (units : Nat) (scale : Int) : Float :=
  let extra := 112 - Nat.log2 units
  let square := units * Nat.pow 4 extra
  let root := Nat.sqrt square
  let cutOff := if root * root = square then 0 else 1
  nearestBinary (2 * root + cutOff) (scale - extra - 1)

/-- The length of the hypotenuse over two legs. An infinite leg makes it infinite, even beside an
undefined one. -/
def hypotenuse (a b : Float) : Float :=
  match Binary.ofFloat a, Binary.ofFloat b with
  | .infinite _, _ => 1.0 / 0.0
  | _, .infinite _ => 1.0 / 0.0
  | .finite _ u p, .finite _ v q =>
    let scale := min p q
    let square := Nat.pow (u * Nat.pow 2 (p - scale).toNat) 2 +
      Nat.pow (v * Nat.pow 2 (q - scale).toNat) 2
    if square = 0 then 0.0 else nearestSqrt square scale
  | _, _ => 0.0 / 0.0

end TreeDiagram.Geometry
