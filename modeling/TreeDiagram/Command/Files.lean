/-!
Paths, and what can go wrong with the files at their ends.

A path is a row of names from the current directory, or from the top, with slashes between them.
-/

namespace TreeDiagram.Command

/-- Why a file cannot be read or written. -/
inductive FileError where
  | notFound
  | notADirectory
  | isADirectory
  | nameTooLong
  | deviceFull
  | notText
  | other (message : String)
  deriving DecidableEq, Repr

/-- The wording of an error. -/
def FileError.message : FileError → String
  | notFound => "No such file or directory (os error 2)"
  | notADirectory => "Not a directory (os error 20)"
  | isADirectory => "Is a directory (os error 21)"
  | nameTooLong => "File name too long (os error 36)"
  | deviceFull => "No space left on device (os error 28)"
  | notText => "stream did not contain valid UTF-8"
  | other message => message

namespace Path

/-- The names between the slashes of a path. -/
def pieces (path : String) : List String :=
  (path.toList.splitOnP (· == '/')).map String.ofList

/-- What a path consists of: whether it begins at the top, whether it begins with the current
directory, and its names. Two paths are the same when they consist of the same. -/
structure Parts where
  absolute : Bool
  current : Bool
  names : List String
  deriving DecidableEq, Repr

/-- The parts of a path. Neither repeated slashes nor the current directory inside a path count. -/
def parts (path : String) : Parts :=
  let pieces := pieces path
  { absolute := path.toList.head? == some '/'
    current := pieces.head? == some "."
    names := pieces.filter fun name => name != "" && name != "." }

/-- The part of a file's name in front of its last dot, unless the name begins with that dot. -/
def stem (name : List Char) : List Char :=
  let extension := name.reverse.takeWhile (· != '.')
  let front := name.take (name.length - extension.length - 1)
  if name.contains '.' && !front.isEmpty then front else name

/-- A path read backwards, without the slashes and the current directories that come before its last
name. -/
def skipToName : List Char → List Char
  | '/' :: cs => skipToName cs
  | '.' :: '/' :: cs => skipToName cs
  | cs => cs

/-- A path cut into what comes before its last name and that name. A path that ends in the current
directory or in the one above has no name of its own. -/
def cut? (path : List Char) : Option (List Char × List Char) :=
  let kept := (skipToName path.reverse).reverse
  let name := (kept.reverse.takeWhile (· != '/')).reverse
  if name = [] ∨ name = ['.'] ∨ name = ['.', '.'] then none
  else some (kept.take (kept.length - name.length), name)

/-- The length of a name's extension. -/
def extensionLength (name : List Char) : Nat :=
  name.length - (stem name).length - 1

/-- The path without the extension of its name, of which only the dot is left. -/
def dropExtension (path : List Char) : List Char :=
  match cut? path with
  | none => path
  | some (_, name) => path.take (path.length - extensionLength name)

/-- The path with another extension for its name. The old extension is dropped first, and a path
that has no name of its own then gets no new one. -/
def withExtension (path extension : String) : String :=
  let dropped := dropExtension path.toList
  match cut? dropped with
  | none => String.ofList dropped
  | some (front, name) => String.ofList (front ++ stem name) ++ "." ++ extension

end Path

end TreeDiagram.Command
