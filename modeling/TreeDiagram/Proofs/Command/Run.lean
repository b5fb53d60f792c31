import TreeDiagram.Command.Run
import TreeDiagram.Proofs.Command.Directory
import TreeDiagram.Proofs.Command.Files
import TreeDiagram.Proofs.Document
/-!
# What the command writes

The command draws what the library draws from the same input, under the scale and the stylesheet
that it is asked for. A drawing goes to one place, and nothing else changes. A listing is put out
and no file changes, and a command that fails puts out nothing and leaves all files as they were.
-/

namespace TreeDiagram.Command

/-- Those who read for the command: a stylesheet, an input and the standard input. -/
structure Readers where
  stylesheet : String → Except FileError String
  input : String → Except FileError String
  standardInput : Except FileError String

/-- A command that puts a text at a place, and does nothing else. -/
structure Writes (d : Directory) (place : Place) (text : String) (out : Result × Directory) :
    Prop where
  silent : out.1.output = ""
  everywhere : ∀ other,
    out.2.find? other = if other = place then some (.file text) else d.find? other

namespace Invocation

/-- The input, from where it is asked for. -/
def readSource (i : Invocation) (r : Readers) : Except FileError String :=
  (i.input.map r.input).getD r.standardInput

/-- What the command is given by those who read for it. -/
def inputsOf (i : Invocation) (r : Readers) : Inputs :=
  { stylesheet := i.stylesheet.map r.stylesheet, source := i.readSource r }

/-- The stylesheet that is asked for, if it can be read. -/
def sheet? (i : Invocation) (r : Readers) : Option Stylesheet :=
  match i.stylesheet with
  | none => some {}
  | some path => (r.stylesheet path).toOption.bind fun text => (Stylesheet.parse text).toOption

/-- The configuration of the library with a stylesheet, whose layout factors count if it has any,
and with the scale that is asked for, or 1 if that is not positive. -/
def libraryConfig (i : Invocation) (sheet : Stylesheet) : RenderConfig where
  layout :=
    match sheet.layout with
    | some factors => factors
    | none => {}
  svg :=
    { scale :=
        match i.scale with
        | some scale => if 0.0 < scale then scale else 1.0
        | none => 1.0 }
  stylesheet := sheet

/-- All that is asked for can be read. -/
def Loads (i : Invocation) (r : Readers) (c : RenderConfig) (source : String) : Prop :=
  (∃ sheet, i.sheet? r = some sheet ∧ i.libraryConfig sheet = c) ∧ i.readSource r = .ok source

/-- A drawing has a path: the one that is asked for, or else the one beside the input. -/
def DrawsTo (i : Invocation) (path : String) : Prop :=
  i.output = some path ∨
    i.output = none ∧ ∃ input, i.input = some input ∧ Path.Beside input.toList path.toList

/-- A path is that of the input. -/
def OverInput (i : Invocation) (path : String) : Prop :=
  ∃ input, i.input = some input ∧ Path.Same input.toList path.toList

/-- Runs the command on what others read for it. -/
def runWith (i : Invocation) (r : Readers) (d : Directory) : Result × Directory :=
  finish (i.execute (i.inputsOf r)) d

/-- Those who read from a directory and the standard input. A stylesheet that is read from the
standard input leaves nothing there. -/
def readersIn (i : Invocation) (d : Directory) (standardInput : String) : Readers :=
  let left := if i.stylesheet.any d.isStandardInput then "" else standardInput
  { stylesheet := d.read standardInput, input := d.read left, standardInput := .ok left }

/-- A drawing goes to one place: to its path, or to the standard output if it has none or if the
path is that of the input. -/
structure Delivers (i : Invocation) (d : Directory) (svg : String) (out : Result × Directory) :
    Prop where
  printed : (∀ path, i.DrawsTo path → i.OverInput path) → out.1.output = svg ∧ out.2 = d
  written : ∀ path, i.DrawsTo path → ¬i.OverInput path →
    (∃ place, d.target path = .ok (.file place) ∧ Writes d place svg out) ∨
    (∃ device, d.target path = .ok (.device device) ∧ out.2 = d ∧
      out.1.output = if device = .standardOutput then svg else "")

/-- What the command leaves is what the library gives. -/
structure Agrees (i : Invocation) (r : Readers) (d : Directory) (out : Result × Directory) :
    Prop where
  ends : out.1.code = 0 ∨ out.1.code = 1
  settled : out.1.file = none
  failed : out.1.code = 1 → out.2 = d ∧ out.1.output = ""
  listed : out.1.code = 0 → i.dumpLayout = true → ∃ c source s, i.Loads r c source ∧
    Session.parse source c.layout c.stylesheet = .ok s ∧ out.1.output = s.layout.display ∧
    out.2 = d
  drawn : out.1.code = 0 → i.dumpLayout = false → ∃ c source svg warnings, i.Loads r c source ∧
    renderWithDiagnostics source c = .ok (svg, warnings) ∧ i.Delivers d svg out
  succeeds : ∀ c source s, i.Loads r c source →
    Session.parse source c.layout c.stylesheet = .ok s →
    (i.dumpLayout = false → ∀ path, i.DrawsTo path → ¬i.OverInput path →
      ∃ t, d.target path = .ok t ∧ t ≠ .device .full) →
    out.1.code = 0

variable {i : Invocation} {r : Readers} {c : RenderConfig} {source : String}

/-! ## What is read -/

theorem libraryConfig_eq (i : Invocation) (sheet : Stylesheet) : i.libraryConfig sheet =
    ({ svg := ({} : SvgOptions).withScale (i.scale.getD 1.0) } : RenderConfig).withStylesheet
      sheet := by
  have layout : (i.libraryConfig sheet).layout = sheet.layout.getD {} := by
    rw [libraryConfig]
    cases sheet.layout <;> rfl
  have scale : (i.libraryConfig sheet).svg = ({} : SvgOptions).withScale (i.scale.getD 1.0) := by
    rw [libraryConfig]
    cases i.scale with
    | none => rw [SvgOptions.withScale, Option.getD_none, ite_self]
    | some scale => rfl
  rw [RenderConfig.withStylesheet, ← layout, ← scale]
  rfl

theorem config_eq_ok_iff : i.config (i.inputsOf r) = .ok c ↔
    ∃ sheet, i.sheet? r = some sheet ∧ i.libraryConfig sheet = c := by
  rw [config, inputsOf, sheet?]
  cases i.stylesheet with
  | none => simp [libraryConfig_eq, RenderConfig.withStylesheet]
  | some path =>
    rw [Option.map_some]
    cases read : r.stylesheet path with
    | error e => simp [read, Except.toOption]
    | ok text =>
      cases parsed : Stylesheet.parse text with
      | error e => simp [read, parsed, Except.toOption]
      | ok sheet => simp [read, parsed, Except.toOption, libraryConfig_eq]

theorem source_eq_ok_iff : i.source (i.inputsOf r) = .ok source ↔ i.readSource r = .ok source := by
  rw [Invocation.source, inputsOf]
  cases i.readSource r with
  | ok text => cases i.input <;> simp
  | error e => cases i.input <;> simp

theorem loads_iff : i.Loads r c source ↔
    i.config (i.inputsOf r) = .ok c ∧ i.source (i.inputsOf r) = .ok source := by
  rw [Loads, config_eq_ok_iff, source_eq_ok_iff]

/-- One configuration and one input are read. -/
theorem Loads.unique {c' : RenderConfig} {source' : String} (h : i.Loads r c source)
    (h' : i.Loads r c' source') : c = c' ∧ source = source' := by
  obtain ⟨config, read⟩ := loads_iff.mp h
  obtain ⟨config', read'⟩ := loads_iff.mp h'
  exact ⟨Except.ok.inj (config.symm.trans config'), Except.ok.inj (read.symm.trans read')⟩

theorem inputsIn_eq (i : Invocation) (d : Directory) (standardInput : String) :
    i.inputsIn d standardInput = i.inputsOf (i.readersIn d standardInput) := by
  rfl

/-! ## Where a drawing goes -/

theorem drawsTo_iff {path : String} : i.DrawsTo path ↔
    (i.output <|> i.input.map (Path.withExtension · "svg")) = some path := by
  rw [DrawsTo]
  cases i.output with
  | none => simp [Path.beside_iff]
  | some asked => simp

theorem overInput_iff {path : String} : i.OverInput path ↔
    i.input.map Path.parts = some (Path.parts path) := by
  rw [OverInput, Option.map_eq_some_iff]
  simp only [Path.same_iff]

theorem target_eq_some_iff {path : String} :
    i.target = some path ↔ i.DrawsTo path ∧ ¬i.OverInput path := by
  rw [target, drawsTo_iff, overInput_iff, Option.filter_eq_some_iff, bne_iff_ne, ne_comm]

theorem target_eq_none_iff : i.target = none ↔ ∀ path, i.DrawsTo path → i.OverInput path := by
  rw [Option.eq_none_iff_forall_ne_some]
  simp only [ne_eq, target_eq_some_iff, not_and, not_not]

end Invocation

/-! ## What is done -/

namespace Result

/-- What a command does, apart from what it tells: its exit code, what it puts out and the file that
it still has to write. -/
def work (r : Result) : Nat × String × Option (String × String) :=
  (r.code, r.output, r.file)

theorem work_eq_iff {r : Result} {code : Nat} {output : String}
    {file : Option (String × String)} :
    r.work = (code, output, file) ↔ r.code = code ∧ r.output = output ∧ r.file = file := by
  rw [work, Prod.mk.injEq, Prod.mk.injEq]

theorem work_sentTo (r : Result) (path text : String) (device : Device) :
    (r.sentTo path text device).work =
      (if device = .full then 1 else r.code,
        if device = .standardOutput then r.output ++ text else r.output,
        if device = .full then none else r.file) := by
  cases device <;> rfl

end Result

theorem finish_of_none {r : Result} (none : r.file = none) (d : Directory) :
    finish r d = (r, d) := by
  rw [finish, none]

theorem finish_of_some {r : Result} {path text : String} (some : r.file = some (path, text))
    (d : Directory) :
    (∃ place, d.target path = .ok (.file place) ∧
      finish r d = ({ r with file := none }, d.put place text)) ∨
    (∃ device, d.target path = .ok (.device device) ∧
      finish r d = (({ r with file := none } : Result).sentTo path text device, d)) ∨
    ∃ e, d.target path = .error e ∧ finish r d = (r.unwritten path e, d) := by
  rw [finish, some]
  dsimp only
  cases d.target path with
  | error e => exact .inr (.inr ⟨e, rfl, rfl⟩)
  | ok t =>
    cases t with
    | file place => exact .inl ⟨place, rfl, rfl⟩
    | device device => exact .inr (.inl ⟨device, rfl, rfl⟩)

namespace Invocation

variable {i : Invocation} {r : Readers} {c : RenderConfig} {source : String} {s : Session Float}

theorem work_execute_of_session (loads : i.Loads r c source) (made : c.session source = .ok s) :
    (i.execute (i.inputsOf r)).work = (i.present c s).work := by
  obtain ⟨config, read⟩ := loads_iff.mp loads
  rw [execute, config]
  dsimp only
  rw [read]
  dsimp only
  rw [process, made]
  rfl

/-- An input that gives no session is not drawn. -/
theorem work_execute_of_unmade
    (unmade : ∀ c source s, i.Loads r c source → c.session source ≠ .ok s) :
    (i.execute (i.inputsOf r)).work = (1, "", none) := by
  rw [execute]
  cases config : i.config (i.inputsOf r) with
  | error reason => rfl
  | ok c =>
    cases read : i.source (i.inputsOf r) with
    | error reason => rfl
    | ok source =>
      cases made : c.session source with
      | error e =>
        dsimp only
        rw [process, made]
        rfl
      | ok s => exact absurd made (unmade c source s (loads_iff.mpr ⟨config, read⟩))

theorem work_present_of_dump (dump : i.dumpLayout = true) (c : RenderConfig) (s : Session Float) :
    (i.present c s).work = (0, s.layout.display, none) := by
  rw [present, if_pos dump]
  rfl

theorem work_present_of_print (draw : i.dumpLayout = false) (untargeted : i.target = none)
    (c : RenderConfig) (s : Session Float) : (i.present c s).work = (0, s.svg c.svg, none) := by
  rw [present, if_neg (by rw [draw]; decide), untargeted]
  rfl

theorem work_present_of_write {path : String} (draw : i.dumpLayout = false)
    (targeted : i.target = some path) (c : RenderConfig) (s : Session Float) :
    (i.present c s).work = (0, "", some (path, s.svg c.svg)) := by
  rw [present, if_neg (by rw [draw]; decide), targeted]
  rfl

theorem renderWithDiagnostics_of_session (made : c.session source = .ok s) :
    renderWithDiagnostics source c = .ok (s.svg c.svg, s.diagnostics) := by
  rw [renderWithDiagnostics, made]
  rfl

theorem delivers_of_print {d : Directory} {svg : String} {out : Result × Directory}
    (untargeted : i.target = none) (printed : out.1.output = svg) (same : out.2 = d) :
    i.Delivers d svg out := by
  have all := target_eq_none_iff.mp untargeted
  exact ⟨fun _ => ⟨printed, same⟩, fun path member differ => absurd (all path member) differ⟩

/-- A drawing with a path of its own goes there. -/
theorem delivers_of_write {d : Directory} {path svg : String} {out : Result × Directory}
    (targeted : i.target = some path)
    (written : (∃ place, d.target path = .ok (.file place) ∧ Writes d place svg out) ∨
      (∃ device, d.target path = .ok (.device device) ∧ out.2 = d ∧
        out.1.output = if device = .standardOutput then svg else "")) :
    i.Delivers d svg out := by
  obtain ⟨member, differ⟩ := target_eq_some_iff.mp targeted
  constructor
  · intro all
    exact absurd (all path member) differ
  · intro path' member' differ'
    have targeted' := target_eq_some_iff.mpr ⟨member', differ'⟩
    obtain rfl : path = path' := Option.some.inj (targeted.symm.trans targeted')
    exact written

/-- A drawing that has to be written is delivered, or the command fails. -/
theorem delivers_finish {out : Result} {path svg : String} (d : Directory)
    (targeted : i.target = some path) (work : out.work = (0, "", some (path, svg))) :
    (finish out d).1.file = none ∧
      ((finish out d).1.code = 0 ∧ i.Delivers d svg (finish out d) ∨
        (finish out d).1.code = 1 ∧ (finish out d).1.output = "" ∧ (finish out d).2 = d ∧
          ∀ t, d.target path = .ok t → t = .device .full) := by
  obtain ⟨code, output, file⟩ := Result.work_eq_iff.mp work
  rcases finish_of_some file d with
    ⟨place, found, done⟩ | ⟨device, found, done⟩ | ⟨e, failed, done⟩
  · rw [done]
    refine ⟨rfl, .inl ⟨code, delivers_of_write targeted (.inl ⟨place, found, output, ?_⟩)⟩⟩
    exact Directory.find?_put (Directory.leads_of_target found) svg
  · rw [done]
    have sent := Result.work_sentTo { out with file := none } path svg device
    obtain ⟨code', output', file'⟩ := Result.work_eq_iff.mp sent
    refine ⟨by rw [file', ite_self], ?_⟩
    by_cases full : device = .full
    · right
      rw [if_pos full] at code'
      rw [if_neg (by rw [full]; decide)] at output'
      refine ⟨code', output'.trans output, rfl, ?_⟩
      intro t found'
      rw [found, full] at found'
      exact (Except.ok.inj found').symm
    · left
      rw [if_neg full] at code'
      refine ⟨code'.trans code, delivers_of_write targeted (.inr ⟨device, found, rfl, ?_⟩)⟩
      rw [output']
      dsimp only
      rw [output, String.empty_append]
  · rw [done]
    refine ⟨rfl, .inr ⟨rfl, output, rfl, ?_⟩⟩
    intro t found
    rw [failed] at found
    cases found

/-- A command that succeeds agrees with the library. -/
theorem agrees_of_success {d : Directory} {out : Result × Directory} (code : out.1.code = 0)
    (file : out.1.file = none)
    (listed : i.dumpLayout = true → ∃ c source s, i.Loads r c source ∧
      c.session source = .ok s ∧ out.1.output = s.layout.display ∧ out.2 = d)
    (drawn : i.dumpLayout = false → ∃ c source svg warnings, i.Loads r c source ∧
      renderWithDiagnostics source c = .ok (svg, warnings) ∧ i.Delivers d svg out) :
    i.Agrees r d out where
  ends := .inl code
  settled := file
  failed one := absurd (code.symm.trans one) (by decide)
  listed _ := listed
  drawn _ := drawn
  succeeds _ _ _ _ _ _ := code

/-- A command that fails agrees with the library if there was no session or no room for its
drawing. -/
theorem agrees_of_failure {d : Directory} {out : Result × Directory} (code : out.1.code = 1)
    (output : out.1.output = "") (file : out.1.file = none) (same : out.2 = d)
    (failed : ∀ c source s, i.Loads r c source → c.session source = .ok s →
      i.dumpLayout = false ∧ ∃ path ∈ i.target, ∀ t, d.target path = .ok t → t = .device .full) :
    i.Agrees r d out where
  ends := .inr code
  settled := file
  failed _ := ⟨same, output⟩
  listed zero := absurd (code.symm.trans zero) (by decide)
  drawn zero := absurd (code.symm.trans zero) (by decide)
  succeeds c source s loads made room := by
    obtain ⟨draw, path, targeted, full⟩ := failed c source s loads made
    obtain ⟨member, differ⟩ := target_eq_some_iff.mp targeted
    obtain ⟨t, found, other⟩ := room draw path member differ
    exact absurd (full t found) other

/-- What the command leaves is what the library gives, whatever is read. -/
theorem agrees_runWith (i : Invocation) (r : Readers) (d : Directory) :
    i.Agrees r d (i.runWith r d) := by
  by_cases possible : ∃ c source s, i.Loads r c source ∧ c.session source = .ok s
  · obtain ⟨c, source, s, loads, made⟩ := possible
    have work := work_execute_of_session loads made
    have drawn := renderWithDiagnostics_of_session made
    cases dump : i.dumpLayout with
    | true =>
      rw [work_present_of_dump dump] at work
      obtain ⟨code, output, file⟩ := Result.work_eq_iff.mp work
      rw [runWith, finish_of_none file]
      refine agrees_of_success code file ?_ fun draw => absurd (dump.symm.trans draw) (by decide)
      exact fun _ => ⟨c, source, s, loads, made, output, rfl⟩
    | false =>
      have notListed (listed : i.dumpLayout = true) : False :=
        absurd (dump.symm.trans listed) (by decide)
      cases target : i.target with
      | none =>
        rw [work_present_of_print dump target] at work
        obtain ⟨code, output, file⟩ := Result.work_eq_iff.mp work
        rw [runWith, finish_of_none file]
        refine agrees_of_success code file (fun listed => (notListed listed).elim) ?_
        exact fun _ => ⟨c, source, _, _, loads, drawn, delivers_of_print target output rfl⟩
      | some path =>
        rw [work_present_of_write dump target] at work
        rw [runWith]
        obtain ⟨file, ⟨code, delivered⟩ | ⟨code, output, same, full⟩⟩ :=
          delivers_finish d target work
        · refine agrees_of_success code file (fun listed => (notListed listed).elim) ?_
          exact fun _ => ⟨c, source, _, _, loads, drawn, delivered⟩
        · refine agrees_of_failure code output file same ?_
          exact fun _ _ _ _ _ => ⟨dump, path, target, full⟩
  · have unmade : ∀ c source s, i.Loads r c source → c.session source ≠ .ok s :=
      fun c source s loads made => possible ⟨c, source, s, loads, made⟩
    have work := work_execute_of_unmade unmade
    obtain ⟨code, output, file⟩ := Result.work_eq_iff.mp work
    rw [runWith, finish_of_none file]
    refine agrees_of_failure code output file rfl ?_
    exact fun c source s loads made => absurd made (unmade c source s loads)

/-- A drawing whose path leads to a file is written there, and all else stays as it was. -/
theorem Agrees.writes {d : Directory} {out : Result × Directory} (h : i.Agrees r d out)
    (loads : i.Loads r c source) (made : c.session source = .ok s) (draw : i.dumpLayout = false)
    {path : String} (targeted : i.target = some path) {place : Place}
    (leads : d.target path = .ok (.file place)) :
    ∃ svg warnings, renderWithDiagnostics source c = .ok (svg, warnings) ∧ out.1.code = 0 ∧
      Writes d place svg out := by
  obtain ⟨member, differ⟩ := target_eq_some_iff.mp targeted
  have code : out.1.code = 0 := by
    refine h.succeeds c source s loads made fun _ path' member' differ' => ?_
    obtain rfl := Option.some.inj (targeted.symm.trans (target_eq_some_iff.mpr ⟨member', differ'⟩))
    exact ⟨_, leads, by simp⟩
  obtain ⟨c', source', svg, warnings, loads', drawn, delivered⟩ := h.drawn code draw
  obtain ⟨rfl, rfl⟩ := loads.unique loads'
  rcases delivered.written path member differ with
    ⟨place', found, writes⟩ | ⟨device, found, -⟩
  · obtain rfl := Directory.Target.file.inj (Except.ok.inj (leads.symm.trans found))
    exact ⟨svg, warnings, drawn, code, writes⟩
  · cases leads.symm.trans found

end Invocation

/-- The command agrees with the library, for all arguments that make it run: with those who read for
it, whatever they read, and so in a directory with a standard input. -/
theorem run_agrees_with_library {args : List String} {i : Invocation}
    (accepted : Invocation.ofArguments args = .ok i) (d : Directory) :
    (∀ r : Readers, i.Agrees r d (i.runWith r d)) ∧
      ∀ standardInput : String, run args standardInput d =
        i.runWith (i.readersIn d standardInput) d := by
  refine ⟨fun r => Invocation.agrees_runWith i r d, fun standardInput => ?_⟩
  rw [run, accepted]
  dsimp only
  rw [Invocation.inputsIn_eq]
  rfl

/-- A small input. -/
def smallTree : String :=
  "bitree = 1(2,3)\n"

/-- A stylesheet with a default and a layout factor. -/
def smallSheet : String :=
  "[defaults]\nEdgeWidth = 3\n[layout]\nspacing_factor = 3.0\n"

/-- What `smallSheet` says. -/
def smallStyles : Stylesheet :=
  { defaults := [(.edgeWidth, .number 3)], layout := some { spacingFactor := 3.0 } }

/-- A directory with a small input and a stylesheet in it. -/
def aroundSmallTree : Directory :=
  .ofFiles [("in.bt", smallTree), ("sheet.toml", smallSheet)]

theorem exists_parse_smallTree : (∃ s : Session Float, Session.parse smallTree = .ok s) ∧
    ∃ s : Session Float, Session.parse smallTree { spacingFactor := 3.0 } smallStyles = .ok s := by
  let tree : TreeDescription.Derivation := .branch "1" (.leaf "2") (.leaf "3")
  have lines : significantLines smallTree.toList = [⟨0, "bitree = 1(2,3)".toList⟩] := by
    decide +kernel
  have marked : afterStartMarker? "bitree = 1(2,3)".toList = some " 1(2,3)".toList := by
    decide +kernel
  have words : (lex " 1(2,3)".toList).toOption.map (List.map Lexeme.token) = some tree.words := by
    decide +kernel
  have parsed (factors : LayoutFactors Float) (sheet : Stylesheet) :=
    Session.exists_parse_of_lines (P := fun _ => True) factors sheet lines marked words
  obtain ⟨s, plain, -⟩ := parsed {} {} (by decide +kernel)
  obtain ⟨s', styled, -⟩ := parsed { spacingFactor := 3.0 } smallStyles (by decide +kernel)
  exact ⟨⟨s, plain⟩, s', styled⟩

/-- The drawing of a small input under a stylesheet and a scale is put beside it, and without them
it is put where it is asked for. All other files stay as they were. -/
theorem run_agrees_with_library_beside :
    (∃ svg warnings, renderWithDiagnostics smallTree
        { layout := { spacingFactor := 3.0 }, svg := { scale := 2.0 }
          stylesheet := smallStyles } = .ok (svg, warnings) ∧
      (run ["in.bt", "-s", "sheet.toml", "--scale", "2"] "" aroundSmallTree).1.code = 0 ∧
      Writes aroundSmallTree (.ofNames ["in.svg"]) svg
        (run ["in.bt", "-s", "sheet.toml", "--scale", "2"] "" aroundSmallTree)) ∧
    ∃ svg warnings, renderWithDiagnostics smallTree {} = .ok (svg, warnings) ∧
      (run ["in.bt", "-o", "out.svg"] "" aroundSmallTree).1.code = 0 ∧
      Writes aroundSmallTree (.ofNames ["out.svg"]) svg
        (run ["in.bt", "-o", "out.svg"] "" aroundSmallTree) := by
  obtain ⟨⟨s, plain⟩, s', styled⟩ := exists_parse_smallTree
  constructor
  · let i : Invocation :=
      { input := some "in.bt", stylesheet := some "sheet.toml", scale := some 2.0 }
    have accepted : Invocation.ofArguments ["in.bt", "-s", "sheet.toml", "--scale", "2"] = .ok i :=
      toOption_eq_some.mp (by decide +kernel)
    obtain ⟨agrees, runs⟩ := run_agrees_with_library accepted aroundSmallTree
    have out := agrees (i.readersIn aroundSmallTree "")
    rw [← runs] at out
    have positive : (0.0 : Float) < 2.0 := by decide +kernel
    have config : i.libraryConfig smallStyles =
        { layout := { spacingFactor := 3.0 }, svg := { scale := 2.0 },
          stylesheet := smallStyles } := by
      simp only [i, Invocation.libraryConfig, smallStyles, if_pos positive]
    have loads : i.Loads (i.readersIn aroundSmallTree "") _ smallTree :=
      ⟨⟨smallStyles, by decide +kernel, config⟩, by decide +kernel⟩
    have targeted : i.target = some "in.svg" := by decide +kernel
    exact out.writes loads styled rfl targeted (by decide +kernel)
  · let i : Invocation := { input := some "in.bt", output := some "out.svg" }
    have accepted : Invocation.ofArguments ["in.bt", "-o", "out.svg"] = .ok i := rfl
    obtain ⟨agrees, runs⟩ := run_agrees_with_library accepted aroundSmallTree
    have out := agrees (i.readersIn aroundSmallTree "")
    rw [← runs] at out
    have loads : i.Loads (i.readersIn aroundSmallTree "") {} smallTree :=
      ⟨⟨{}, rfl, rfl⟩, by decide +kernel⟩
    have targeted : i.target = some "out.svg" := by decide +kernel
    exact out.writes loads plain rfl targeted (by decide +kernel)

end TreeDiagram.Command
