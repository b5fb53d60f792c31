/-!
The values of a TOML document, and the rules by which its tables grow.

A table is written under its own header, or arises because a header or a dotted key goes through it,
or stands in braces. What may be added to a table later depends on which of these made it.
-/

namespace TreeDiagram.Toml

/-- What made a table. -/
inductive TableKind where
  /-- A header of its own. -/
  | header
  /-- The header of a table inside it. -/
  | implied
  /-- A dotted key. -/
  | dotted
  /-- Braces, after which nothing more can be added. -/
  | closed
  deriving DecidableEq, Repr

/-- A value of a document. An array that headers make lists its newest table first. -/
inductive Value where
  | string (text : String)
  | integer (n : Int)
  | float (x : Float)
  | boolean (b : Bool)
  | datetime
  | array (items : List Value)
  | table (kind : TableKind) (entries : List (String × Value))
  | tables (newestFirst : List Value)

/-- A table that can still grow. -/
structure Table where
  kind : TableKind
  entries : List (String × Value)

namespace Table

/-- A table without entries. -/
def new (kind : TableKind) : Table := ⟨kind, []⟩

/-- The table as a value. -/
def toValue (t : Table) : Value := .table t.kind t.entries

/-- The value under a key. -/
def find? (t : Table) (key : String) : Option Value := t.entries.lookup key

/-- The table without a key. -/
def erase (t : Table) (key : String) : Table :=
  { t with entries := t.entries.filter fun e => e.1 != key }

/-- Entries with a value under a key: where the key is already, or else at the end. -/
def putEntry (key : String) (v : Value) : List (String × Value) → List (String × Value)
  | [] => [(key, v)]
  | e :: rest => if e.1 = key then (key, v) :: rest else e :: putEntry key v rest

/-- The table with a value under a key, in place of the one that is there. -/
def put (t : Table) (key : String) (v : Value) : Table :=
  { t with entries := putEntry key v t.entries }

/-- Changes the table at the end of a path of keys, making the tables on the way that are missing.
A dotted key does not go through a table with a header, and nothing goes through a value that is
no table or closed. In an array of tables the way goes on in the newest one. -/
def change (dotted : Bool) (f : Table → Option Table) : List String → Table → Option Table
  | [], t => f t
  | key :: path, t =>
    match t.find? key with
    | none =>
      (change dotted f path (new (if dotted then .dotted else .implied))).map fun inner =>
        t.put key inner.toValue
    | some (.table kind entries) =>
      if kind = .closed ∨ dotted ∧ kind = .header then none
      else (change dotted f path ⟨kind, entries⟩).map fun inner => t.put key inner.toValue
    | some (.tables (.table kind entries :: earlier)) =>
      (change dotted f path ⟨kind, entries⟩).map fun inner =>
        t.put key (.tables (inner.toValue :: earlier))
    | some _ => none

/-- Adds a value under a key at the end of a path. A dotted key adds only to tables that dotted keys
made, and no key is set twice. -/
def insert (t : Table) (path : List String) (key : String) (v : Value) : Option Table :=
  t.change true
    (fun inner =>
      if decide (inner.kind = .dotted) = path.isEmpty then none
      else if (inner.find? key).isSome then none
      else some (inner.put key v))
    path

end Table

end TreeDiagram.Toml
