import TreeDiagram.Decimal.Reader
/-!
The arguments of the command.

Arguments are taken one after the other, and the first one that is wrong, or asks for help, ends the
reading. Every option may be given once. The value of an option follows it or is attached to it, and
does not begin with a dash unless it is attached.
-/

namespace TreeDiagram.Command

/-- The options that take a value. -/
inductive Setting where
  | output
  | stylesheet
  | scale
  | logLevel
  deriving DecidableEq, Repr

/-- What the command is asked to do. -/
structure Invocation where
  input : Option String := none
  output : Option String := none
  stylesheet : Option String := none
  scale : Option Float := none
  logLevel : Option String := none
  dumpLayout : Bool := false
  deriving DecidableEq

/-- Why the command does not run. -/
inductive Refusal where
  | help
  | usage
  deriving DecidableEq, Repr

/-- The setting of a long name. -/
def Setting.ofLong? (name : String) : Option Setting :=
  if name = "output" then some output
  else if name = "stylesheet" then some stylesheet
  else if name = "scale" then some scale
  else if name = "log-level" then some logLevel
  else none

/-- The setting of a letter. -/
def Setting.ofShort? (letter : Char) : Option Setting :=
  if letter = 'o' then some output
  else if letter = 's' then some stylesheet
  else none

/-- A path, which must not be empty, for an option that was not given yet. -/
def setPath (old : Option String) (path : String) : Option String :=
  if old.isNone && path != "" then some path else none

namespace Invocation

/-- Sets an option that was not given yet to a value that it takes. -/
def set (i : Invocation) (s : Setting) (value : String) : Option Invocation :=
  match s with
  | .output => (setPath i.output value).map fun path => { i with output := some path }
  | .stylesheet => (setPath i.stylesheet value).map fun path => { i with stylesheet := some path }
  | .scale =>
    if i.scale.isSome then none
    else (Decimal.read? value).map fun scale => { i with scale := some scale }
  | .logLevel => if i.logLevel.isSome then none else some { i with logLevel := some value }

/-- Sets the input, which may be given once. -/
def setInput (i : Invocation) (path : String) : Option Invocation :=
  (setPath i.input path).map fun path => { i with input := some path }

/-- Asks for the layout, which may be done once. -/
def setDump (i : Invocation) : Option Invocation :=
  if i.dumpLayout then none else some { i with dumpLayout := true }

end Invocation

/-- The forms of an argument. -/
inductive Form where
  /-- Two dashes, after which there are only inputs. -/
  | divider
  | long (name : String) (attached : Option String)
  | short (letter : Char) (attached : Option String)
  | plain
  deriving DecidableEq, Repr

/-- The value attached to a letter, perhaps behind an equals sign. -/
def attachedToLetter : List Char → Option String
  | [] => none
  | '=' :: cs => some (String.ofList cs)
  | cs => some (String.ofList cs)

/-- The form of an argument. A single dash is a plain one. -/
def Form.of (arg : String) : Form :=
  match arg.toList with
  | ['-', '-'] => .divider
  | '-' :: '-' :: cs =>
    let name := String.ofList (cs.takeWhile (· != '='))
    match cs.dropWhile (· != '=') with
    | [] => .long name none
    | _ :: value => .long name (some (String.ofList value))
  | '-' :: letter :: cs => .short letter (attachedToLetter cs)
  | _ => .plain

/-- The result of a step that may be refused. -/
def orUsage {α : Type} : Option α → Except Refusal α
  | some a => .ok a
  | none => .error .usage

/-- The options that take no value. -/
def setFlag (i : Invocation) (name : String) : Except Refusal Invocation :=
  if name = "help" then .error .help
  else if name = "dump-layout" then orUsage i.setDump
  else .error .usage

mutual

/-- Takes the arguments into an invocation. -/
def readArguments (i : Invocation) : List String → Except Refusal Invocation
  | [] => .ok i
  | arg :: rest =>
    match Form.of arg with
    | .divider => (orUsage (rest.foldlM Invocation.setInput i))
    | .plain => (orUsage (i.setInput arg)).bind fun i => readArguments i rest
    | .long name attached =>
      match Setting.ofLong? name, attached with
      | some s, some value => (orUsage (i.set s value)).bind fun i => readArguments i rest
      | some s, none => readValue i s rest
      | none, some _ => .error .usage
      | none, none => (setFlag i name).bind fun i => readArguments i rest
    | .short letter attached =>
      if letter = 'h' then .error .help
      else
        match Setting.ofShort? letter, attached with
        | some s, some value => (orUsage (i.set s value)).bind fun i => readArguments i rest
        | some s, none => readValue i s rest
        | none, _ => .error .usage

/-- Takes the value of an option from the arguments behind it, then those behind the value. -/
def readValue (i : Invocation) (s : Setting) : List String → Except Refusal Invocation
  | [] => .error .usage
  | value :: rest =>
    if Form.of value = .plain then
      (orUsage (i.set s value)).bind fun i => readArguments i rest
    else .error .usage

end

/-- The invocation that a list of arguments asks for. -/
def Invocation.ofArguments (args : List String) : Except Refusal Invocation :=
  readArguments {} args

/-- The lines of the text that explains the command. -/
def helpLines : List String :=
  ["Draw binary trees from a bracketed text notation",
    "",
    "Usage: bitree-viz [OPTIONS] [INPUT]",
    "",
    "Arguments:",
    "  [INPUT]  Input file (reads from stdin if not provided)",
    "",
    "Options:",
    "  -o, --output <OUTPUT>          Output file",
    "  -s, --stylesheet <STYLESHEET>  Stylesheet with global property defaults (TOML format)",
    "      --dump-layout              Print the computed layout instead of SVG",
    "      --scale <SCALE>            Page scale of the SVG output [default: 1]",
    "      --log-level <LOG_LEVEL>    Log level [default: warn]",
    "  -h, --help                     Print help"]

/-- The text that explains the command. -/
def helpText : String :=
  helpLines.foldl (fun text line => text ++ line ++ "\n") ""

end TreeDiagram.Command
