import TreeDiagram.Text.Span
import TreeDiagram.Text.Letter
/-!
The words of a tree description: labels, parentheses and commas.
-/

namespace TreeDiagram

/-- A word of a tree description. -/
inductive Token where
  | leftParen
  | rightParen
  | comma
  | label (text : String)
  deriving DecidableEq, Repr

/-- A word with its place in the text. -/
structure Lexeme where
  token : Token
  span : Span
  deriving DecidableEq, Repr

/-- The longest label, in bytes. -/
def maxLabelLength : Nat := 256

/-- The characters that labels are made of. -/
def isLabelChar (c : Char) : Bool :=
  isAlphanumeric c || c == '_'

/-- The characters that are a word on their own. -/
def punctuation? (c : Char) : Option Token :=
  if c = '(' then some .leftParen
  else if c = ')' then some .rightParen
  else if c = ',' then some .comma
  else none

/-- The symbols of the grammar of tree descriptions: one for a whole subtree, one for each kind of
word, and the end of the text. -/
inductive Symbol where
  | tree
  | label
  | leftParen
  | rightParen
  | comma
  | finish
  deriving DecidableEq, Repr

/-- How messages name a symbol. -/
def Symbol.describe : Symbol → String
  | tree | label => "a label"
  | leftParen => "'('"
  | rightParen => "')'"
  | comma => "','"
  | finish => "end of input"

/-- The symbol that a word matches. -/
def Token.symbol : Token → Symbol
  | leftParen => .leftParen
  | rightParen => .rightParen
  | comma => .comma
  | label _ => .label

end TreeDiagram
