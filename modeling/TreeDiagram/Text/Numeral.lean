import TreeDiagram.Text.Letter
/-!
Numerals: decimal digits, or hexadecimal digits after `0x`.

A numeral has a value whatever its length, and any number of leading zeros. Limits are set by those
who read one.
-/

namespace TreeDiagram

/-- The radixes that numerals are written in. -/
inductive Radix where
  | decimal
  | hexadecimal
  deriving DecidableEq, Repr

namespace Radix

/-- The number of different digits. -/
def base : Radix → Nat
  | decimal => 10
  | hexadecimal => 16

/-- Whether a character is a digit. -/
def isDigit : Radix → Char → Bool
  | decimal => TreeDiagram.isDigit
  | hexadecimal => isHexDigit

end Radix

namespace Numeral

/-- The value of a hexadecimal digit, of which the decimal digits are the first ten. -/
def digitValue (c : Char) : Nat :=
  if isDigit c then c.toNat - 48
  else if c ≤ 'F' then c.toNat - 55
  else c.toNat - 87

/-- The value of a run of digits. -/
def value (radix : Radix) (digits : List Char) : Nat :=
  digits.foldl (fun n c => n * radix.base + digitValue c) 0

/-- The value of a text that is a non-empty run of digits. -/
def ofDigits? (radix : Radix) (cs : List Char) : Option Nat :=
  if !cs.isEmpty && cs.all radix.isDigit then some (value radix cs) else none

/-- Cuts off the mark of a hexadecimal numeral. -/
def afterMark? : List Char → Option (List Char)
  | '0' :: 'x' :: digits => some digits
  | '0' :: 'X' :: digits => some digits
  | _ => none

/-- The value of a text that is a numeral. -/
def read? (cs : List Char) : Option Nat :=
  match afterMark? cs with
  | some digits => ofDigits? .hexadecimal digits
  | none => ofDigits? .decimal cs

end Numeral

end TreeDiagram
