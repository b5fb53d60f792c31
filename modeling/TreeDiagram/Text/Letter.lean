/-!
The classes of characters that the input is made of. All of them are classes of ASCII characters:
a character outside ASCII is in none of them.
-/

namespace TreeDiagram

/-- A space, a tab, an end of line or any other character up to the space. -/
def isBlank (c : Char) : Bool :=
  decide (c ≤ ' ')

/-- A decimal digit. -/
def isDigit (c : Char) : Bool :=
  decide ('0' ≤ c) && decide (c ≤ '9')

/-- A lower-case letter from `a` to `f` or an upper-case one. -/
def isHexLetter (c : Char) : Bool :=
  decide ('a' ≤ c) && decide (c ≤ 'f') || decide ('A' ≤ c) && decide (c ≤ 'F')

/-- A hexadecimal digit. -/
def isHexDigit (c : Char) : Bool :=
  isDigit c || isHexLetter c

/-- A letter or a decimal digit. -/
def isAlphanumeric (c : Char) : Bool :=
  isDigit c || decide ('a' ≤ c) && decide (c ≤ 'z') || decide ('A' ≤ c) && decide (c ≤ 'Z')

/-- A character that stands for itself on paper, from the space to the tilde. -/
def isPrintable (c : Char) : Bool :=
  decide (' ' ≤ c) && decide (c ≤ '~')

/-- The letter in lower case, any other character unchanged. -/
def lowercase (c : Char) : Char :=
  if 'A' ≤ c ∧ c ≤ 'Z' then Char.ofNat (c.toNat + 32) else c

end TreeDiagram
