import TreeDiagram.Command.Files
/-!
A directory as a value: what is read from it and written to it is a function of the files in it.

Files are kept by the names that lead to them. A directory exists where a file is in it. Around the
current directory lie those above it and, from the top downwards, the directories that every system
has, among them one with devices.
-/

namespace TreeDiagram.Command

/-- Where names begin to lead: at the top, or some levels above the current directory. -/
inductive Start where
  | top
  | above (levels : Nat)
  deriving DecidableEq, Repr

/-- The names that lead to a file or to a directory, and where they begin. -/
structure Place where
  start : Start
  names : List String
  deriving DecidableEq, Repr

namespace Place

/-- A place in the current directory. -/
def ofNames (names : List String) : Place := ⟨.above 0, names⟩

/-- The directory around a place. There is nothing above the top. -/
def outer (place : Place) : Place :=
  match place.names, place.start with
  | [], .top => place
  | [], .above levels => ⟨.above (levels + 1), []⟩
  | _ :: _, start => ⟨start, place.names.dropLast⟩

/-- Whether one place lies inside another. -/
def isInside (inner outer : Place) : Bool :=
  inner.start == outer.start && outer.names.isPrefixOf inner.names && inner != outer

/-- No name takes more bytes than this. -/
def nameLimit : Nat := 255

/-- The place that a name leads to from another place. -/
def step (place : Place) (name : String) : Except FileError Place :=
  if name = "" ∨ name = "." then .ok place
  else if name = ".." then .ok place.outer
  else if name.utf8ByteSize ≤ nameLimit then .ok ⟨place.start, place.names ++ [name]⟩
  else .error .nameTooLong

/-- The directories that every system has at its top. -/
def systemDirectories : List String :=
  ["bin", "boot", "dev", "etc", "home", "lib", "media", "mnt", "opt", "proc", "root", "run", "sbin",
    "srv", "sys", "tmp", "usr", "var"]

/-- Whether a place is a directory whatever files there are. -/
def isStanding (place : Place) : Bool :=
  match place.start, place.names with
  | _, [] => true
  | .top, [name] => systemDirectories.contains name
  | _, _ => false

end Place

/-- The devices that can be read or written. -/
inductive Device where
  /-- Holds nothing and keeps nothing. -/
  | null
  /-- Has no room for anything. -/
  | full
  | standardInput
  | standardOutput
  | standardError
  deriving DecidableEq, Repr

/-- The device at a place. -/
def Device.at? (place : Place) : Option Device :=
  if place.start = .top then
    match place.names with
    | ["dev", "null"] => some null
    | ["dev", "full"] => some full
    | ["dev", "stdin"] => some standardInput
    | ["dev", "stdout"] => some standardOutput
    | ["dev", "stderr"] => some standardError
    | _ => none
  else none

/-- The files in and around a directory, each with its place. -/
structure Directory where
  files : List (Place × String) := []
  deriving Repr

namespace Directory

/-- What can be at a place. -/
inductive Entry where
  | file (text : String)
  | device (device : Device)
  | directory
  deriving DecidableEq, Repr

/-- What is at a place. -/
def find? (d : Directory) (place : Place) : Option Entry :=
  match d.files.lookup place, Device.at? place with
  | some text, _ => some (.file text)
  | none, some device => some (.device device)
  | none, none =>
    if place.isStanding || d.files.any (fun file => file.1.isInside place) then some .directory
    else none

/-- The place that names lead to from another place, of which all but the last must be
directories. -/
def follow (d : Directory) : Place → List String → Except FileError Place
  | place, [] => .ok place
  | place, name :: names =>
    match d.find? place with
    | some .directory => do d.follow (← place.step name) names
    | some _ => .error .notADirectory
    | none => .error .notFound

/-- No path takes as many bytes as this. -/
def pathLimit : Nat := 4096

/-- The place that a path leads to, when its pieces are given. -/
def locate (d : Directory) (path : String) (pieces : List String) : Except FileError Place :=
  if path = "" then .error .notFound
  else if pathLimit ≤ path.utf8ByteSize then .error .nameTooLong
  else d.follow ⟨if (Path.parts path).absolute then .top else .above 0, []⟩ pieces

/-- The text that a path leads to, given what is at the standard input. -/
def read (d : Directory) (standardInput path : String) : Except FileError String := do
  let place ← d.locate path (Path.pieces path)
  match d.find? place with
  | some (.file text) => .ok text
  | some (.device .standardInput) => .ok standardInput
  | some (.device _) => .ok ""
  | some .directory => .error .isADirectory
  | none => .error .notFound

/-- Whether a path leads to the standard input. -/
def isStandardInput (d : Directory) (path : String) : Bool :=
  match d.locate path (Path.pieces path) with
  | .ok place => d.find? place == some (.device .standardInput)
  | .error _ => false

/-- The directory with a text at a place, in place of the one that was there. -/
def put (d : Directory) (place : Place) (text : String) : Directory :=
  ⟨(place, text) :: d.files.filter fun file => file.1 != place⟩

/-- Where a text can go. -/
inductive Target where
  | file (place : Place)
  | device (device : Device)
  deriving DecidableEq, Repr

/-- Where a text goes that is written to a path. A path with a slash at its end is only good for
directories. -/
def target (d : Directory) (path : String) : Except FileError Target := do
  let pieces := ((Path.pieces path).reverse.dropWhile (· == "")).reverse
  let _ ← d.locate path (pieces.dropLast ++ [""])
  if path.toList.getLast? = some '/' then .error .isADirectory
  else
    let place ← d.locate path pieces
    match d.find? place with
    | some .directory => .error .isADirectory
    | some (.device device) => .ok (.device device)
    | _ => .ok (.file place)

/-- The directory with given files, each under its path. -/
def ofFiles (files : List (String × String)) : Directory :=
  files.foldl (fun d file => d.put (.ofNames (Path.parts file.1).names) file.2) {}

end Directory

end TreeDiagram.Command
