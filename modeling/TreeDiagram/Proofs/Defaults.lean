import TreeDiagram.Proofs.Property.Writing
import TreeDiagram.Proofs.Relocation
import TreeDiagram.Proofs.Stylesheet
/-!
# Stylesheets as lines

The defaults of a stylesheet have the effect of a line for the whole diagram that stands directly
behind the start line: an input under the stylesheet and the input with that line, under no
stylesheet, have the same outcome up to the places behind the line.
-/

namespace TreeDiagram

theorem trimmed_globalLine (assignments : List (Property × Value)) (offset : Nat) :
    significantAmong [⟨offset, (globalLine assignments).toList⟩] =
      [⟨offset, (globalLine assignments).toList⟩] := by
  have brackets : ∃ inside, (globalLine assignments).toList = '[' :: (inside ++ [']']) :=
    ⟨(", ".intercalate (assignments.map fun a => a.1.name ++ "=" ++ a.2.display)).toList,
      by simp [globalLine, String.toList_append]⟩
  obtain ⟨inside, text⟩ := brackets
  have first : isBlank '[' = false := rfl
  have last : isTrailing ']' = false := rfl
  have speaks : ¬SaysNothing ('[' :: (inside ++ [']'])) := by
    intro silent
    have mark := silent '[' rfl
    revert mark
    decide
  rw [text, significantAmong_of_speaks speaks]
  simp [SourceLine.trimStart, SourceLine.trimEnd, dropTrailing, first, last]

namespace Document

variable {K : Type}

/-- A start line is read whatever was set before. -/
theorem readStart_restyle [Scalar K] (styling styling' : Styling) (line : SourceLine) :
    readStart (K := K) styling' line =
      (readStart styling line).map fun d => { d with styling := styling' } := by
  unfold readStart
  cases afterStartMarker? line.text with
  | none => rfl
  | some rest =>
    dsimp only
    cases TreeDescription.parse (K := K) rest <;> rfl

/-- The line of the defaults sets what the stylesheet sets. -/
theorem readProperties_globalLine {sheet : Stylesheet} (some : sheet.defaults ≠ [])
    (writable : ∀ a ∈ sheet.defaults, a.1.rule.Admits a.2 ∧ a.2.Plain) (capacity : Nat)
    (description : TreeDescription K) (offset : Nat) :
    readProperties { description, styling := Session.initialStyling {} capacity }
        ⟨offset, (globalLine sheet.defaults).toList⟩ =
      .ok { description, styling := Session.initialStyling sheet capacity,
            propertyLines := 1 } := by
  obtain ⟨pairs, same, said⟩ := Line.exists_lineText_globalLine some writable
  have accepted := scanLine_eq_ok_iff.mpr ⟨_, _, said, rfl⟩
  refine readProperties_eq_ok.mpr ⟨_, Session.initialStyling sheet capacity, accepted, ?_, rfl⟩
  simp only [Styling.commit, ScannedLine.ofPairs, same]
  rfl

/-- An input with the line of the defaults is read as the input is under the stylesheet. -/
theorem read_insert_globalLine [Scalar K] {sheet : Stylesheet} {source : String}
    (some : sheet.defaults ≠ [])
    (writable : ∀ a ∈ sheet.defaults, a.1.rule.Admits a.2 ∧ a.2.Plain)
    (speaks : significantLines source.toList ≠ []) (capacity : Nat) :
    read (K := K) (Session.initialStyling {} capacity)
        (insertBehindStart source (globalLine sheet.defaults)) =
      relocated (Span.makeRoom (linesLength (startFront source))
          ((globalLine sheet.defaults).utf8ByteSize + 1)) 1
        (read (Session.initialStyling sheet capacity) source) := by
  obtain ⟨first, behind, said, said', inFront, later⟩ := significantLines_insertBehindStart speaks
    (newline_notMem_globalLine fun a member => (writable a member).2)
  rw [trimmed_globalLine, List.singleton_append, byteLength_toList] at said'
  let room :=
    Span.makeRoom (linesLength (startFront source)) ((globalLine sheet.defaults).utf8ByteSize + 1)
  have inPlace : first.MovedBy room first := SourceLine.movedBy_self inFront
  have moved : List.Forall₂ (SourceLine.MovedBy room) behind
      (behind.map (SourceLine.shift ((globalLine sheet.defaults).utf8ByteSize + 1))) :=
    SourceLine.forall₂_movedBy_shift later
  have stays : readStart (Session.initialStyling sheet capacity) first = relocated (K := K) room 0
      (readStart (Session.initialStyling sheet capacity) first) := readStart_relocated inPlace
  rw [read, read, said, said', readLines, readLines,
    readStart_restyle (Session.initialStyling sheet capacity)]
  cases start : readStart (K := K) (Session.initialStyling sheet capacity) first with
  | error e =>
    rw [start] at stays
    exact stays
  | ok d =>
    obtain ⟨-, tree, -, -, rfl⟩ := readStart_eq_ok start
    change (_ :: behind.map _).foldlM readProperties _ = relocated _ 1 (behind.foldlM _ _)
    rw [List.foldlM_cons, readProperties_globalLine some writable]
    let d : Document K :=
      { description := tree.description, styling := Session.initialStyling sheet capacity }
    have run : (behind.map _).foldlM readProperties (d.relocate room 1) =
        relocated room 1 (behind.foldlM readProperties d) := foldlM_relocated moved d
    exact run

end Document

namespace Session

variable {K : Type} [Scalar K]

theorem significantLines_ne_nil_of_parse {source : String} {factors : LayoutFactors K}
    {sheet : Stylesheet} {capacity : Nat} {s : Session K}
    (parsed : parse source factors sheet capacity = .ok s) :
    significantLines source.toList ≠ [] := by
  obtain ⟨first, later, -, lines, -⟩ := Document.read_eq_ok (parse_eq_ok parsed).1
  rw [lines]
  exact List.cons_ne_nil first later

/-- How places move when the line of the defaults is put behind the start line of an input. -/
def besideDefaults (sheet : Stylesheet) (source : String) : Span → Span :=
  Span.makeRoom (linesLength (startFront source)) ((globalLine sheet.defaults).utf8ByteSize + 1)

theorem parse_insert_globalLine {sheet : Stylesheet} {source : String} (some : sheet.defaults ≠ [])
    (writable : ∀ a ∈ sheet.defaults, a.1.rule.Admits a.2 ∧ a.2.Plain)
    (speaks : significantLines source.toList ≠ []) (factors : LayoutFactors K) (capacity : Nat) :
    parse (insertBehindStart source (globalLine sheet.defaults)) factors {} capacity =
      relocated (besideDefaults sheet source) 1 (parse source factors sheet capacity) :=
  parse_relocated (Document.read_insert_globalLine some writable speaks capacity) factors

/-- The defaults in a document are loaded if each of them is an integer or a string that is a value
of its property, and else the first one that is not is reported, in the order of the bytes of the
names. The loaded defaults, in this order, mean what a line means that makes the same assignments
and stands directly behind the start line of an input, unless one of them is a text that cannot be
written in quotes: the input has the same outcome without the stylesheet, but for the places behind
the line. -/
theorem parse_defaults_as_line {text : String} {parts : Stylesheet.Parts}
    (document : (Toml.parse text).bind Stylesheet.partsOf? = some parts) :
    ((∃ sheet, Stylesheet.parse text = .ok sheet) ↔
        ∀ entry ∈ parts.defaults, ∃ d, Stylesheet.Accepts entry d) ∧
      (∀ e, Stylesheet.parse text = .error e → ∃ entry ∈ parts.defaults,
        Stylesheet.Rejects entry e ∧ ∀ other ∈ parts.defaults,
          (∃ e', Stylesheet.Rejects other e') → bytes entry.1 ≤ bytes other.1) ∧
      ∀ sheet, Stylesheet.parse text = .ok sheet →
        (∃ entries, entries.Perm parts.defaults ∧
          entries.Pairwise (fun entry later => bytes entry.1 ≤ bytes later.1) ∧
          List.Forall₂ (fun entry d => d.1.name = entry.1 ∧ Stylesheet.Accepts entry d) entries
            sheet.defaults) ∧
        (sheet.defaults ≠ [] → (∀ d ∈ sheet.defaults, d.2.Plain) →
          ∀ (source : String) (factors : LayoutFactors K) (capacity : Nat),
            (significantLines source.toList ≠ [] →
              parse (insertBehindStart source (globalLine sheet.defaults)) factors {} capacity =
                relocated (besideDefaults sheet source) 1
                  (parse source factors sheet capacity)) ∧
            ∀ s, parse source factors sheet capacity = .ok s → ∃ s',
              parse (insertBehindStart source (globalLine sheet.defaults)) factors {} capacity =
                  .ok s' ∧
                Agree (besideDefaults sheet source) s s') := by
  have read : Stylesheet.parse text = (Stylesheet.readDefaults parts.defaults).map fun defaults =>
      { name := parts.metadata.bind Prod.fst
        description := parts.metadata.bind Prod.snd
        defaults
        layout := parts.layout } := by
    rw [Stylesheet.parse, document]
  refine ⟨?_, ?_, ?_⟩
  · rw [← Stylesheet.exists_readDefaults_iff, read]
    cases Stylesheet.readDefaults parts.defaults <;> simp [Except.map]
  · intro e failed
    rw [read] at failed
    exact Stylesheet.exists_entry_of_readDefaults (map_eq_error.mp failed)
  · intro sheet loaded
    rw [read] at loaded
    obtain ⟨defaults, done, rfl⟩ := map_eq_ok.mp loaded
    obtain ⟨entries, perm, order, accepted⟩ := Stylesheet.exists_entries_of_readDefaults done
    refine ⟨⟨entries, perm, order, accepted.imp fun entry d accepts =>
      ⟨accepts.validated.1, accepts⟩⟩, ?_⟩
    intro some plain source factors capacity
    have writable : ∀ d ∈ defaults, d.1.rule.Admits d.2 ∧ d.2.Plain := by
      intro d member
      obtain ⟨entry, -, accepts⟩ := exists_left_of_forall₂ accepted d member
      exact ⟨accepts.validated.2, plain d member⟩
    refine ⟨fun speaks => parse_insert_globalLine some writable speaks factors capacity, ?_⟩
    intro s parsed
    have moved := parse_insert_globalLine some writable (significantLines_ne_nil_of_parse parsed)
      factors capacity
    rw [parsed] at moved
    exact ⟨_, moved, agree_relocate _ 1 s⟩

/-- A document with two defaults. -/
def fonts : String :=
  "[defaults]\nFontFamily = \"DejaVu Sans\"\nFontSize = 14\n"

/-- The sheet that they make. -/
def fontSheet : Stylesheet :=
  { defaults := [(.fontFamily, .text "DejaVu Sans"), (.fontSize, .number 14)] }

theorem exists_loaded_fonts : ∃ parts sheet,
    (Toml.parse fonts).bind Stylesheet.partsOf? = some parts ∧
      Stylesheet.parse fonts = .ok sheet ∧ sheet.defaults = fontSheet.defaults := by
  have facts : ((Toml.parse fonts).bind Stylesheet.partsOf?).map (fun parts =>
      (parts.defaults.map Prod.fst, (parts.defaults.mapM Stylesheet.readDefault).toOption)) =
        some (["FontFamily", "FontSize"], some fontSheet.defaults) := by decide +kernel
  obtain ⟨parts, document, facts⟩ := Option.map_eq_some_iff.mp facts
  obtain ⟨names, values⟩ := Prod.mk.inj facts
  have order : parts.defaults.Pairwise fun a b => decide (a.1 ≤ b.1) = true := by
    have sorted : (parts.defaults.map Prod.fst).Pairwise fun a b => decide (a ≤ b) = true := by
      rw [names]
      decide
    exact List.pairwise_map.mp sorted
  have read : Stylesheet.readDefaults parts.defaults = .ok fontSheet.defaults := by
    rw [Stylesheet.readDefaults, List.mergeSort_of_pairwise order]
    exact toOption_eq_some.mp values
  let sheet : Stylesheet :=
    { name := parts.metadata.bind Prod.fst
      description := parts.metadata.bind Prod.snd
      defaults := fontSheet.defaults
      layout := parts.layout }
  refine ⟨parts, sheet, document, ?_, rfl⟩
  rw [Stylesheet.parse, document]
  simp only [read, Except.map, sheet]

theorem exists_parse_misscoped_under_fonts :
    ∃ s : Session Rat, parse misscoped {} fontSheet = .ok s := by
  obtain ⟨lines, marked, words⟩ := lines_misscoped
  obtain ⟨s, parsed, -⟩ := exists_parse_of_lines (K := Rat) (P := fun _ => True) {} fontSheet lines
    marked words (by decide +kernel)
  exact ⟨s, parsed⟩

theorem parse_defaults_as_line_fonts : ∃ sheet, Stylesheet.parse fonts = .ok sheet ∧
    ∃ s s' : Session Rat, parse misscoped {} sheet = .ok s ∧
      parse ("bitree = A(B,C)\n[FontFamily=\"DejaVu Sans\", FontSize=14]\n" ++
          "1[FontSize=14, FillColor=2];\n") = .ok s' ∧
      Agree (Span.makeRoom 16 40) s s' := by
  obtain ⟨parts, sheet, document, loaded, same⟩ := exists_loaded_fonts
  obtain ⟨s, parsed⟩ := exists_parse_misscoped_under_fonts
  have under : parse misscoped {} sheet = .ok s := by
    rw [← parsed]
    simp only [parse, initialStyling, Stylesheet.apply, same]
  have plain : ∀ d ∈ fontSheet.defaults, d.2.Plain := by
    intro d member text isText
    rcases List.mem_pair.mp member with rfl | rfl
    · cases isText
      simp
    · cases isText
  have inserted : insertBehindStart misscoped (globalLine fontSheet.defaults) =
      "bitree = A(B,C)\n[FontFamily=\"DejaVu Sans\", FontSize=14]\n" ++
        "1[FontSize=14, FillColor=2];\n" := by decide +kernel
  have place : linesLength (startFront misscoped) = 16 := by decide +kernel
  have width : (globalLine fontSheet.defaults).utf8ByteSize + 1 = 40 := by decide +kernel
  obtain ⟨-, alike⟩ := (parse_defaults_as_line (K := Rat) document).2.2 sheet loaded
  rw [same] at alike
  obtain ⟨s', parsed', agree⟩ :=
    (alike (List.cons_ne_nil _ _) plain misscoped {} maxNodeId).2 s under
  rw [inserted] at parsed'
  rw [besideDefaults, same, place, width] at agree
  exact ⟨sheet, loaded, s, s', under, parsed', agree⟩

end Session

end TreeDiagram
