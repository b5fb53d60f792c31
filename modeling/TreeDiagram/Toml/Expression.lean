import TreeDiagram.Toml.Number
/-!
Keys and values of a TOML document.

Arrays and tables in braces are nested to a bounded depth. Keys of a table in braces follow the
rules of all tables, and once its brace is closed nothing can be added to it.
-/

namespace TreeDiagram.Toml

/-- No value is nested as deep as this, and no key has as many parts. -/
def nestingLimit : Nat := 80

/-- A letter, a digit, an underscore or a dash. -/
def isBareKeyChar (c : Char) : Bool :=
  isAlphanumeric c || c == '_' || c == '-'

/-- A part of a key: a bare word or a string on one line. -/
def keyPart : Reader String := fun cs =>
  match shortString cs with
  | some found => some found
  | none =>
    let word := cs.takeWhile isBareKeyChar
    if word.isEmpty then none else some (String.ofList word, cs.dropWhile isBareKeyChar)

/-- A part of a key with the blanks around it. -/
def spacedKeyPart : Reader String := fun cs =>
  (keyPart (skipGap cs)).map fun (part, rest) => (part, skipGap rest)

/-- A dot and the part of a key behind it. -/
def nextKeyPart : Reader String
  | '.' :: rest => spacedKeyPart rest
  | _ => none

/-- The parts of a key: all but the last one, and the last one. -/
abbrev Key := List String × String

/-- A key, whose parts are separated by dots. -/
def key : Reader Key := fun cs => do
  let (first, rest) ← spacedKeyPart cs
  let (others, rest) := many nextKeyPart rest
  if others.length + 1 < nestingLimit then
    some (((first :: others).dropLast, (first :: others).getLast (List.cons_ne_nil _ _)), rest)
  else none

/-- A truth value. -/
def boolean : Reader Value := fun cs =>
  match after? ['t', 'r', 'u', 'e'] cs with
  | some rest => some (.boolean true, rest)
  | none => (after? ['f', 'a', 'l', 's', 'e'] cs).map fun rest => (.boolean false, rest)

/-- A value that holds no others. -/
def scalar : Reader Value := fun cs =>
  match string cs with
  | some (text, rest) => some (.string text, rest)
  | none =>
    match boolean cs with
    | some found => some found
    | none => number cs

/-- The items of an array, at most a given number. A comma may follow the last one. -/
def arrayItems (item : Reader Value) : Nat → List Char → List Value × List Char
  | 0, cs => ([], cs)
  | times + 1, cs =>
    match item (skipBreaks cs) with
    | none => ([], cs)
    | some (v, rest) =>
      match skipBreaks rest with
      | ',' :: rest =>
        let more := arrayItems item times rest
        (v :: more.1, more.2)
      | rest => ([v], rest)

/-- An array behind its opening bracket. -/
def array (item : Reader Value) : Reader Value := fun cs =>
  let items := arrayItems item cs.length cs
  (after? [']'] (skipBreaks items.2)).map fun rest => (.array items.1, rest)

/-- A key and its value. -/
def keyValue (item : Reader Value) : Reader (Key × Value) := fun cs => do
  let (k, rest) ← key cs
  let rest ← after? ['='] rest
  let (v, rest) ← item (skipGap rest)
  some ((k, v), rest)

/-- A comma, a key and its value. -/
def nextKeyValue (item : Reader Value) : Reader (Key × Value)
  | ',' :: rest => (keyValue item rest).map fun (kv, rest) => (kv, skipGap rest)
  | _ => none

/-- A table behind its opening brace, all on one line and without a comma at the end. -/
def inlineTable (item : Reader Value) : Reader Value := fun cs => do
  let (pairs, rest) :=
    match keyValue item cs with
    | none => ([], skipGap cs)
    | some (first, rest) =>
      let more := many (nextKeyValue item) (skipGap rest)
      (first :: more.1, more.2)
  let rest ← after? ['\x7d'] rest
  let table ← pairs.foldlM (fun t (k, v) => t.insert k.1 k.2 v) (Table.new .header)
  some (.table .closed table.entries, rest)

/-- A value with at most `depth` others around each of those inside it. -/
def value : Nat → Reader Value
  | 0, cs => scalar cs
  | depth + 1, cs =>
    match cs with
    | '[' :: rest => array (value depth) rest
    | '\x7b' :: rest => inlineTable (value depth) rest
    | cs => scalar cs

end TreeDiagram.Toml
