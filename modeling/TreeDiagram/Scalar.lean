/-!
The numbers that coordinates are computed with.

A drawing is laid out over any type with the four operations, an order, the natural numbers and
decimal literals. Binary floating point draws; the exact rationals run the very same definitions
without rounding, which is where statements about distances are exact.

`larger` and `smaller` pass over an undefined number: one that is not even at most itself. Of two
equal numbers they keep the first.
-/

namespace TreeDiagram

/-- Numbers that a drawing can be laid out with. -/
class Scalar (K : Type) extends Add K, Sub K, Mul K, Div K, Neg K, LE K, LT K, NatCast K,
    OfScientific K where
  decidableLE : DecidableLE K
  decidableLT : DecidableLT K
  /-- Neither infinite nor undefined. -/
  isFinite : K → Bool

attribute [reducible, instance] Scalar.decidableLE Scalar.decidableLT

instance : Scalar Float where
  natCast := Float.ofNat
  decidableLE := inferInstance
  decidableLT := inferInstance
  isFinite := Float.isFinite

instance : Scalar Rat where
  decidableLE := inferInstance
  decidableLT := inferInstance
  isFinite _ := true

namespace Scalar

variable {K : Type} [Scalar K]

/-- The larger of two numbers. -/
def larger (a b : K) : K :=
  if a < b then b else if a ≤ a then a else b

/-- The smaller of two numbers. -/
def smaller (a b : K) : K :=
  if b < a then b else if a ≤ a then a else b

/-- Two numbers of the same value; an undefined number is the same as none. -/
def same (a b : K) : Bool :=
  decide (a ≤ b) && decide (b ≤ a)

/-- The distance of a number from zero. -/
def magnitude (a : K) : K :=
  if a < 0.0 then -a else a

/-- The largest of a row of numbers, none for an empty row. -/
def largest? : List K → Option K
  | [] => none
  | x :: xs => some (xs.foldl larger x)

/-- The smallest of a row of numbers, none for an empty row. -/
def smallest? : List K → Option K
  | [] => none
  | x :: xs => some (xs.foldl smaller x)

end Scalar

end TreeDiagram
