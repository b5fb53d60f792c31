/-!
Elements of a drawing as text.

Text from the input is escaped before it becomes part of an element; what an element is made of is
written as it is.
-/

namespace TreeDiagram

/-- How a character of a text is written where markup has a meaning of its own. -/
def escapeChar : Char → List Char
  | '&' => ['&', 'a', 'm', 'p', ';']
  | '<' => ['&', 'l', 't', ';']
  | '>' => ['&', 'g', 't', ';']
  | '"' => ['&', 'q', 'u', 'o', 't', ';']
  | '\x27' => ['&', 'a', 'p', 'o', 's', ';']
  | c => [c]

/-- A text that stands for itself inside markup. -/
def escape (s : String) : String :=
  String.ofList (s.toList.flatMap escapeChar)

/-- An attribute with a blank in front of it. -/
def attributeText (name value : String) : String :=
  " " ++ name ++ "=\"" ++ value ++ "\""

/-- An element: its tag, its attributes in their order, further attributes that are text already,
and what it encloses. -/
structure Element where
  tag : String
  attributes : List (String × String)
  styles : String := ""
  content : Option String := none
  deriving DecidableEq, Repr

namespace Element

/-- The attributes of an element. -/
def attributesText (e : Element) : String :=
  e.attributes.foldl (fun text a => text ++ attributeText a.1 a.2) "" ++ e.styles

/-- The tag that opens an element which others follow inside it. -/
def opening (e : Element) : String :=
  "<" ++ e.tag ++ e.attributesText ++ ">"

/-- The tag that closes an element. -/
def closing (e : Element) : String :=
  "</" ++ e.tag ++ ">"

/-- The whole element. -/
def text (e : Element) : String :=
  match e.content with
  | none => "<" ++ e.tag ++ e.attributesText ++ "/>"
  | some content => e.opening ++ content ++ e.closing

end Element

end TreeDiagram
