import TreeDiagram.Description.Token
import TreeDiagram.Property.Validation
import TreeDiagram.Property.Table
/-!
What can go wrong while an input is read, and where.

An error is a cause with a place. The wording, the class and the alternatives that a report lists
are functions of the cause alone.
-/

namespace TreeDiagram

/-- The classes of problems. A scope mismatch is only ever a warning. -/
inductive ProblemKind where
  | lexical
  | malformed
  | tokenTooLong
  | invalidNodeId
  | unknownProperty
  | invalidPropertyValue
  | propertySetOverflow
  | nodeTableOverflow
  | scopeMismatch
  | startTokenMissing
  deriving DecidableEq, Repr

/-- The name of a class. -/
def ProblemKind.describe : ProblemKind → String
  | lexical => "lexical error"
  | malformed => "syntax error"
  | tokenTooLong => "token too long"
  | invalidNodeId => "invalid node id"
  | unknownProperty => "unknown property"
  | invalidPropertyValue => "invalid property value"
  | propertySetOverflow => "property set overflow"
  | nodeTableOverflow => "node table overflow"
  | scopeMismatch => "scope mismatch"
  | startTokenMissing => "start token missing"

/-- What a property line lacks where something else stands. -/
inductive LineItem where
  | scope
  | leftBracket
  | propertyName
  | equals
  | number
  | value
  | rightBracket
  | lineEnd
  deriving DecidableEq, Repr

namespace LineItem

/-- The first part of the message. -/
def message : LineItem → String
  | scope => "expected a node id or '['"
  | leftBracket => "expected '['"
  | propertyName => "expected a property name"
  | equals => "expected '='"
  | number => "expected a number"
  | value => "expected a value"
  | rightBracket => "missing ']'"
  | lineEnd => "unexpected content after ']'"

/-- What could have stood there. -/
def alternatives : LineItem → List String
  | scope => ["a node id", "'['"]
  | leftBracket => ["'['"]
  | propertyName => ["a property name"]
  | equals => ["'='"]
  | number => ["a decimal or 0x hex number"]
  | value => ["a value"]
  | rightBracket => ["']'", "a property name"]
  | lineEnd => ["end of line"]

end LineItem

/-- A breach of the grammar, of a tree description or of a property line. -/
inductive Fault where
  /-- A word, or the end of the description, where a symbol was due. -/
  | unexpectedWord (found : Option Token) (due : Symbol)
  /-- More subtrees than places to hang them from. -/
  | unbalanced
  /-- A place that was kept for a label given to a subtree. -/
  | misplacedLabel
  /-- The description ended before its tree did. -/
  | incomplete
  /-- A character, or the end of the line, where an item of a property line was due. -/
  | unexpectedInLine (found : Option Char) (due : LineItem)
  /-- A quoted value without its second quote. -/
  | unterminatedQuote
  deriving DecidableEq, Repr

namespace Fault

/-- How messages name a word, or the end of the description. -/
def describeWord : Option Token → String
  | some (.label text) => s!"label '{text}'"
  | some token => token.symbol.describe
  | none => Symbol.finish.describe

/-- The wording of a breach. -/
def message : Fault → String
  | unexpectedWord found due => s!"unexpected {describeWord found}, expected {due.describe}"
  | unbalanced => "unbalanced tree description"
  | misplacedLabel => "label found where a subtree was expected"
  | incomplete => "incomplete tree description"
  | unexpectedInLine (some c) due => s!"{due.message}, found '{c}'"
  | unexpectedInLine none due => s!"{due.message}, found end of line"
  | unterminatedQuote => "unterminated quoted value"

/-- What could have stood there. A subtree that branches starts with a label too. -/
def alternatives : Fault → List String
  | unexpectedWord _ .tree => [Symbol.tree.describe, "a label followed by '('"]
  | unexpectedWord _ due => [due.describe]
  | unexpectedInLine _ due => due.alternatives
  | unterminatedQuote => ["'\"'"]
  | unbalanced | misplacedLabel | incomplete => []

end Fault

/-- The word that opens every input. -/
def startMarker : String := "bitree"

/-- Why an input could not be read. -/
inductive ParseError.Cause where
  | lexical (found : Char)
  | malformed (fault : Fault)
  | tokenTooLong (length limit : Nat)
  | invalidNodeId (text : String)
  | unknownProperty (name : String)
  | invalidPropertyValue (property : Property) (raw : String) (reason : PropertyError)
  | propertySetOverflow (node : NodeId) (limit : Nat)
  | nodeTableOverflow (limit : Nat)
  | startTokenMissing
  deriving DecidableEq, Repr

namespace ParseError.Cause

/-- The class of a cause. -/
def kind : Cause → ProblemKind
  | lexical _ => .lexical
  | malformed _ => .malformed
  | tokenTooLong _ _ => .tokenTooLong
  | invalidNodeId _ => .invalidNodeId
  | unknownProperty _ => .unknownProperty
  | invalidPropertyValue _ _ _ => .invalidPropertyValue
  | propertySetOverflow _ _ => .propertySetOverflow
  | nodeTableOverflow _ => .nodeTableOverflow
  | startTokenMissing => .startTokenMissing

/-- The wording of a cause. -/
def message : Cause → String
  | lexical found => s!"unrecognized character '{found}'"
  | malformed fault => fault.message
  | tokenTooLong length limit => s!"token of {length} characters exceeds the limit of {limit}"
  | invalidNodeId text => s!"invalid node id '{text}'"
  | unknownProperty name => s!"unknown property '{name}'"
  | invalidPropertyValue property raw reason =>
    s!"invalid value '{raw}' for {property.name}: {reason.message}"
  | propertySetOverflow node limit => (StoreError.propertySetOverflow node limit).message
  | nodeTableOverflow limit => (StoreError.nodeTableOverflow limit).message
  | startTokenMissing => s!"input must begin with '{startMarker} ='"

/-- The alternatives that a report lists. -/
def alternatives : Cause → List String
  | malformed fault => fault.alternatives
  | _ => []

/-- A batch of assignments that the table did not take. -/
def ofStore : StoreError → Cause
  | .propertySetOverflow node limit => .propertySetOverflow node limit
  | .nodeTableOverflow limit => .nodeTableOverflow limit

end ParseError.Cause

/-- An error: its cause and the place of the offending text. -/
structure ParseError where
  cause : ParseError.Cause
  span : Span
  deriving DecidableEq, Repr

namespace ParseError

/-- The class of an error. -/
def kind (e : ParseError) : ProblemKind := e.cause.kind

/-- The wording of an error. -/
def message (e : ParseError) : String := e.cause.message

/-- The same error in a text in which `base` bytes come first. -/
def shift (base : Nat) (e : ParseError) : ParseError :=
  { e with span := e.span.shift base }

/-- A breach of the grammar at a place. -/
def ofFault (fault : Fault) (span : Span) : ParseError :=
  ⟨.malformed fault, span⟩

end ParseError

/-- A warning: a property of the whole diagram was set for a single node, and is ignored there. -/
structure Diagnostic where
  span : Span
  node : NodeId
  property : Property
  deriving DecidableEq, Repr

namespace Diagnostic

/-- The class of a warning. -/
def kind (_ : Diagnostic) : ProblemKind := .scopeMismatch

/-- The wording of a warning. -/
def message (d : Diagnostic) : String :=
  s!"extend property '{d.property.name}' cannot be used as a property of node {d.node}, " ++
    "it is ignored"

/-- The wording of a warning after its class. -/
def display (d : Diagnostic) : String :=
  s!"{d.kind.describe}: {d.message}"

/-- The same warning in a text in which `base` bytes come first. -/
def shift (base : Nat) (d : Diagnostic) : Diagnostic :=
  { d with span := d.span.shift base }

end Diagnostic

end TreeDiagram
