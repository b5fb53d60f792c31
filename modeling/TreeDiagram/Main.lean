import TreeDiagram.Command.Run
/-!
The command itself: reads what the invocation asks for, runs it, and hands out its result.
-/

namespace TreeDiagram.Command

/-- What went wrong with a file. -/
def FileError.of : IO.Error → FileError
  | .noFileOrDirectory _ _ _ => .notFound
  | .inappropriateType _ code _ => if code = 21 then .isADirectory else .notADirectory
  | .resourceExhausted _ 28 _ => .deviceFull
  | e@(.invalidArgument _ code _) =>
    if code = 36 ∨ code = -36 then .nameTooLong else .other (toString e)
  | e => .other (toString e)

/-- Bytes as text. -/
def textOf (bytes : ByteArray) : Except FileError String :=
  match String.fromUTF8? bytes with
  | some text => .ok text
  | none => .error .notText

/-- The text of a file. -/
def load (path : String) : IO (Except FileError String) := do
  try return textOf (← IO.FS.readBinFile path)
  catch e => return .error (.of e)

/-- The text of the standard input. -/
def loadStandardInput : IO (Except FileError String) := do
  try
    let input ← IO.getStdin
    let mut bytes := ByteArray.empty
    repeat
      let chunk ← input.read 65536
      if chunk.isEmpty then break
      bytes := bytes ++ chunk
    return textOf bytes
  catch e => return .error (.of e)

/-- Reads what an invocation asks for. -/
def Invocation.load (i : Invocation) : IO Inputs := do
  let stylesheet ←
    match i.stylesheet with
    | none => pure none
    | some path => some <$> Command.load path
  let source ←
    match i.input with
    | none => loadStandardInput
    | some path => Command.load path
  return { stylesheet, source }

/-- Writes the file that is still to be written. -/
def Result.settle (r : Result) : IO Result := do
  match r.file with
  | none => return r
  | some (path, text) =>
    try
      IO.FS.writeFile path text
      return { r with file := none }
    catch e => return r.unwritten path (.of e)

/-- How a log line begins. -/
def severityText : Severity → String
  | .warning => "WARN"
  | .info => "INFO"
  | .debug => "DEBUG"

/-- Hands out what the command puts out. -/
def Result.show (r : Result) : IO UInt32 := do
  for event in r.log do
    IO.eprintln s!"[{severityText event.severity}] {event.message}"
  IO.eprint r.errors
  IO.print r.output
  return r.code.toUInt32

end TreeDiagram.Command

open TreeDiagram.Command in
/-- Draws the tree that the arguments ask for. -/
def main (args : List String) : IO UInt32 := do
  match Invocation.ofArguments args with
  | .error refusal =>
    if refusal = .usage then
      IO.eprintln "error: wrong arguments\n\nFor more information, try '--help'."
    refusal.result.show
  | .ok i => (← (i.execute (← i.load)).settle).show
