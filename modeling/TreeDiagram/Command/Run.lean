import TreeDiagram.Command.Arguments
import TreeDiagram.Command.Directory
import TreeDiagram.Journal
import TreeDiagram.Report
/-!
What the command does, as a function of its arguments and of what it is given to read.

An input is read, laid out under a stylesheet and drawn, or listed in place of the drawing. A
drawing goes to a file: the one that was asked for, or one beside the input. It goes to the standard
output where there is no such file and where the file would replace the input.
-/

namespace TreeDiagram.Command

/-- How much of what happens is told. -/
inductive LogLevel where
  | off
  | error
  | warn
  | info
  | debug
  | trace
  deriving DecidableEq, Repr

namespace LogLevel

/-- The level of a name, in letters of either case. -/
def ofName? (name : String) : Option LogLevel :=
  let name := String.ofList (name.toList.map lowercase)
  if name = "off" then some off
  else if name = "error" then some error
  else if name = "warn" then some warn
  else if name = "info" then some info
  else if name = "debug" then some debug
  else if name = "trace" then some trace
  else none

/-- Whether an event that matters so much is told. -/
def admits : LogLevel → Severity → Bool
  | off, _ | error, _ => false
  | warn, severity => severity == .warning
  | info, severity => severity != .debug
  | debug, _ | trace, _ => true

end LogLevel

/-- What the command is given to read: the stylesheet, if it asks for one, and the input. -/
structure Inputs where
  stylesheet : Option (Except FileError String)
  source : Except FileError String

/-- What the command did: its exit code, what it put out, and the file it still has to write. -/
structure Result where
  code : Nat
  output : String := ""
  errors : String := ""
  log : List Event := []
  file : Option (String × String) := none

namespace Result

/-- A command that failed, with the reason as a line. -/
def failure (reason : String) : Result :=
  { code := 1, errors := reason ++ "\n" }

/-- The same result with something told before its errors. -/
def telling (r : Result) (text : String) : Result :=
  { r with errors := text ++ r.errors }

/-- The result of a command that could not write its file. -/
def unwritten (r : Result) (path : String) (e : FileError) : Result :=
  { r with
    code := 1
    errors := r.errors ++ s!"Error writing '{path}': {e.message}\n"
    file := none }

end Result

namespace Invocation

/-- The complaint about a log level that is none. -/
def levelComplaint (i : Invocation) : String :=
  match i.logLevel with
  | none => ""
  | some name =>
    if (LogLevel.ofName? name).isSome then ""
    else s!"Invalid log level: {name}. Using 'warn' instead.\n"

/-- The level of what is told: warnings, unless another one was asked for. -/
def level (i : Invocation) : LogLevel :=
  (i.logLevel.bind LogLevel.ofName?).getD .warn

/-- How messages name the input. -/
def inputName (i : Invocation) : String :=
  i.input.getD "<stdin>"

/-- What drawings are made with: the scale, and the stylesheet with its layout factors. -/
def config (i : Invocation) (inputs : Inputs) : Except String RenderConfig :=
  let plain : RenderConfig := { svg := ({} : SvgOptions).withScale (i.scale.getD 1.0) }
  match i.stylesheet, inputs.stylesheet with
  | some path, some (.error e) =>
    .error s!"Error loading stylesheet '{path}': Failed to read stylesheet file: {e.message}"
  | some path, some (.ok text) =>
    match Stylesheet.parse text with
    | .error e => .error s!"Error loading stylesheet '{path}': {e.message}"
    | .ok sheet => .ok (plain.withStylesheet sheet)
  | _, _ => .ok plain

/-- The input, or why there is none. -/
def source (i : Invocation) (inputs : Inputs) : Except String String :=
  match inputs.source, i.input with
  | .ok text, _ => .ok text
  | .error e, some path => .error s!"Error reading file '{path}': {e.message}"
  | .error e, none => .error s!"Error reading from stdin: {e.message}"

/-- The file that a drawing goes to. -/
def target (i : Invocation) : Option String :=
  let asked := i.output <|> i.input.map (Path.withExtension · "svg")
  asked.filter fun path => some (Path.parts path) != i.input.map Path.parts

/-- The report of an input that gives no drawing. -/
def reportFailure (i : Invocation) (source : String) : SessionError Float → String
  | .parse e => (Report.ofError source e).text i.inputName
  | .layout e => s!"Error: {e.message}\n"

/-- The reports of warnings. -/
def reportWarnings (i : Invocation) (source : String) (warnings : List Diagnostic) : String :=
  warnings.foldl (fun text d => text ++ (Report.ofDiagnostic source d).text i.inputName) ""

/-- The result for a session: the listing of its layout, or its drawing. -/
def present (i : Invocation) (c : RenderConfig) (s : Session Float) : Result :=
  if i.dumpLayout then { code := 0, output := s.layout.display }
  else
    let svg := s.svg c.svg
    match i.target with
    | none => { code := 0, output := svg }
    | some path => { code := 0, file := some (path, svg) }

/-- The events that are told about an input. -/
def events (i : Invocation) (c : RenderConfig) (source : String) : List Event :=
  let told :=
    if i.dumpLayout then (Journal.ofSession c source).1 else (Journal.ofSource source c).2
  told.filter fun event => i.level.admits event.severity

/-- The result for an input under a configuration. -/
def process (i : Invocation) (c : RenderConfig) (source : String) : Result :=
  let result : Result :=
    match c.session source with
    | .error e => { code := 1, errors := i.reportFailure source e }
    | .ok s => (i.present c s).telling (i.reportWarnings source s.diagnostics)
  { result with log := i.events c source }

/-- Runs the command on what it is given to read. -/
def execute (i : Invocation) (inputs : Inputs) : Result :=
  let result : Result :=
    match i.config inputs with
    | .error reason => .failure reason
    | .ok c =>
      match i.source inputs with
      | .error reason => .failure reason
      | .ok source => i.process c source
  result.telling i.levelComplaint

/-- What the command is given to read from a directory and the standard input. A stylesheet that is
read from the standard input leaves nothing there. -/
def inputsIn (i : Invocation) (d : Directory) (standardInput : String) : Inputs :=
  let drained := i.stylesheet.any d.isStandardInput
  let left := if drained then "" else standardInput
  { stylesheet := i.stylesheet.map (d.read standardInput)
    source := (i.input.map (d.read left)).getD (.ok left) }

end Invocation

/-- The result of a command that does not run. -/
def Refusal.result : Refusal → Result
  | help => { code := 0, output := helpText }
  | usage => { code := 2 }

/-- The result of a command whose file is a device. -/
def Result.sentTo (r : Result) (path text : String) : Device → Result
  | .null | .standardInput => r
  | .full => r.unwritten path .deviceFull
  | .standardOutput => { r with output := r.output ++ text }
  | .standardError => { r with errors := r.errors ++ text }

/-- Writes the file that a command still has to write. -/
def finish (r : Result) (d : Directory) : Result × Directory :=
  match r.file with
  | none => (r, d)
  | some (path, text) =>
    let written := { r with file := none }
    match d.target path with
    | .ok (.file place) => (written, d.put place text)
    | .ok (.device device) => (written.sentTo path text device, d)
    | .error e => (r.unwritten path e, d)

/-- Runs the command in a directory: its result, and the directory afterwards. -/
def run (args : List String) (standardInput : String) (d : Directory) : Result × Directory :=
  match Invocation.ofArguments args with
  | .error refusal => (refusal.result, d)
  | .ok i => finish (i.execute (i.inputsIn d standardInput)) d

end TreeDiagram.Command
