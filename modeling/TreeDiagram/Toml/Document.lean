import TreeDiagram.Toml.Expression
/-!
TOML documents: lines with a key and a value, under headers that name the table they belong to.

A header puts the table written so far into the document and starts another one. A table that arose
only because headers went through it can still get a header of its own, once.
-/

namespace TreeDiagram.Toml

/-- A document in progress: the finished tables, and the table being written with its place. -/
structure Draft where
  root : Table
  current : Table
  /-- The path of the table being written, empty for the document itself. -/
  path : List String
  /-- Whether the table being written is an item of an array of tables. -/
  inArray : Bool

namespace Draft

/-- A document without lines. -/
def empty : Draft :=
  { root := Table.new .header, current := Table.new .header, path := [], inArray := false }

/-- Puts a finished table under the last key of its path. -/
def store (inArray : Bool) (key : String) (done parent : Table) : Option Table :=
  match parent.find? key, inArray with
  | none, true => some (parent.put key (.tables [done.toValue]))
  | some (.tables earlier), true => some (parent.put key (.tables (done.toValue :: earlier)))
  | none, false => some (parent.put key done.toValue)
  | _, _ => none

/-- The document with the table being written put in its place. -/
def finish (d : Draft) : Option Table :=
  match d.path.getLast? with
  | none => some d.current
  | some key => d.root.change false (store d.inArray key d.current) d.path.dropLast

/-- Takes the table out of its parent that gets a header now, without entries if it is new. -/
def reopen (key : String) (parent : Table) : Option Table :=
  match parent.find? key with
  | none => some (Table.new .header)
  | some (.table .implied entries) => some ⟨.header, entries⟩
  | some _ => none

/-- The table at the end of a path. -/
def tableAt : List String → Table → Option Table
  | [], t => some t
  | key :: path, t =>
    match t.find? key with
    | some (.table kind entries) => tableAt path ⟨kind, entries⟩
    | some (.tables (.table kind entries :: _)) => tableAt path ⟨kind, entries⟩
    | _ => none

/-- Starts the table of a header. -/
def openTable (d : Draft) (k : Key) : Option Draft := do
  let root ← d.finish
  let parent ← (root.change false some k.1).bind (tableAt k.1)
  let current ← reopen k.2 parent
  let root ← root.change false (fun t => some (t.erase k.2)) k.1
  some { root, current, path := k.1 ++ [k.2], inArray := false }

/-- Starts an item of an array of tables. -/
def openArrayItem (d : Draft) (k : Key) : Option Draft := do
  let root ← d.finish
  let root ← root.change false
    (fun t =>
      match t.find? k.2 with
      | none => some t
      | some (.tables _) => some t
      | some _ => none)
    k.1
  some { root, current := Table.new .header, path := k.1 ++ [k.2], inArray := true }

/-- Adds a key and its value to the table being written. -/
def add (d : Draft) (kv : Key × Value) : Option Draft :=
  (d.current.insert kv.1.1 kv.1.2 kv.2).map fun current => { d with current }

end Draft

/-- A value at the outermost depth. -/
def topValue : Reader Value := value (nestingLimit - 1)

/-- The line behind the opening bracket of a header. -/
def header (closing : List Char) (start : Key → Option Draft) (cs : List Char) :
    Option (Draft × List Char) := do
  let (k, rest) ← key cs
  let rest ← after? closing rest
  let rest ← lineEnd? rest
  let d ← start k
  some (d, rest)

/-- A line of a document: empty, a comment, a header, or a key and its value. -/
def line (d : Draft) (cs : List Char) : Option (Draft × List Char) :=
  match skipGap cs with
  | [] => some (d, [])
  | '[' :: '[' :: rest => header [']', ']'] d.openArrayItem rest
  | '[' :: rest => header [']'] d.openTable rest
  | '#' :: rest => (lineEnd? ('#' :: rest)).map fun rest => (d, rest)
  | cs =>
    match newline? cs with
    | some rest => some (d, rest)
    | none => do
      let (kv, rest) ← keyValue topValue cs
      let rest ← lineEnd? rest
      let d ← d.add kv
      some (d, rest)

/-- The lines of a document, at most a given number. -/
def lines : Nat → Draft → List Char → Option Draft
  | _, d, [] => some d
  | 0, _, _ :: _ => none
  | times + 1, d, cs => do
    let (d, rest) ← line d cs
    lines times d rest

/-- The text without a byte order mark at its start. -/
def skipMark : List Char → List Char
  | '\ufeff' :: cs => cs
  | cs => cs

/-- The table that a document describes, none if it is not well formed. -/
def parse (text : String) : Option Table := do
  let cs := skipMark text.toList
  let d ← lines cs.length Draft.empty cs
  d.finish

end TreeDiagram.Toml
