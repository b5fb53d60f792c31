import TreeDiagram.Proofs.Cascade
import TreeDiagram.Proofs.Description.Words
import TreeDiagram.Proofs.Layout.Extent
import TreeDiagram.Proofs.Property.Validity
/-!
# Positive measures

Every label that is read has from one to 256 bytes, and whatever defaults and lines are given, the
size of the font stays below a bound. So the radius that fits the longest label under the default
factors is at least two and bounded as well: every input that is read has a layout, with positive
distances and margins and a page that is not smaller than its margins.
-/

namespace TreeDiagram

/-! ## Labels -/

theorem Writable.utf8ByteSize_eq {label : String} (writable : Writable label) :
    label.utf8ByteSize = label.toList.length := by
  rw [← byteLength_toList]
  exact byteLength_eq_length fun c member => utf8Size_of_isLabelChar (writable.letters c member)

namespace TreeDescription.Derivation

theorem writable_of_lex {cs : List Char} {words : List Lexeme} (split : lex cs = .ok words)
    {d : Derivation} (same : words.map Lexeme.token = d.words) :
    ∀ label ∈ d.labels, Writable label := by
  intro label member
  rw [← label_mem_words, ← same] at member
  obtain ⟨w, inWords, isLabel⟩ := List.mem_map.mp member
  exact (proper_of_lex split w inWords).writable label isLabel

theorem longest_bounds {d : Derivation} (writable : ∀ label ∈ d.labels, Writable label) :
    1 ≤ d.longest ∧ d.longest ≤ maxLabelLength := by
  obtain ⟨label, member, size⟩ := d.isGreatest_longest.1
  have written := writable label member
  rw [← size, written.utf8ByteSize_eq]
  exact ⟨List.length_pos_iff.mpr written.notEmpty, written.short⟩

end TreeDescription.Derivation

/-! ## Styles -/

/-- The numbers that are built in obey their rules. The texts do not: those that are built in are
empty, which none that is read may be. -/
theorem Property.admits_builtIn {p : Property} {min max : Nat} (rule : p.rule = .range min max) :
    p.rule.Admits (({} : Style).get p) := by
  cases p <;> first | decide | cases rule

theorem Style.Valid.exists_number {s : Style} (valid : s.Valid) {p : Property} {min max : Nat}
    (rule : p.rule = .range min max) : ∃ n, s.get p = .number n ∧ min ≤ n ∧ n ≤ max := by
  have admits : p.rule.Admits (s.get p) := by
    rcases valid p with builtIn | admits
    · rw [builtIn]
      exact Property.admits_builtIn rule
    · exact admits
  rw [rule] at admits
  cases value : s.get p with
  | number n =>
    rw [value] at admits
    exact ⟨n, rfl, admits⟩
  | text t =>
    rw [value] at admits
    cases admits

theorem Style.Valid.fontSize_le {s : Style} (valid : s.Valid) : s.fontSize ≤ 36 := by
  obtain ⟨n, value, -, most⟩ := valid.exists_number (p := .fontSize) rfl
  cases value
  exact most

namespace Document

variable {K : Type} {capacity : Nat} {d next last : Document K}

theorem valid_of_readProperties {line : SourceLine} (valid : d.styling.Valid capacity)
    (done : readProperties d line = .ok next) : next.styling.Valid capacity := by
  unfold readProperties at done
  rcases valid.applyLine line.text with ⟨after, found, applied, held⟩ | ⟨e, failed, -⟩
  · rw [applied] at done
    cases done
    exact held
  · rw [failed] at done
    cases done

theorem valid_of_foldlM {lines : List SourceLine} (valid : d.styling.Valid capacity)
    (done : lines.foldlM readProperties d = .ok last) : last.styling.Valid capacity :=
  foldlM_invariant (fun _ _ _ held first => valid_of_readProperties held first) valid done

variable [Scalar K] {source : String}

theorem valid_of_read {styling : Styling} (valid : styling.Valid capacity)
    (done : read styling source = .ok d) : d.styling.Valid capacity := by
  obtain ⟨first, later, description, -, done⟩ := read_eq_ok done
  exact valid_of_foldlM (d := { description, styling }) valid done

theorem longestLabel_bounds {styling : Styling} (done : read styling source = .ok d) :
    1 ≤ d.description.longestLabel ∧ d.description.longestLabel ≤ maxLabelLength := by
  obtain ⟨first, later, rest, tree, -, -, words, done⟩ := exists_lines_of_read done
  rw [description_of_foldlM done]
  obtain ⟨lexemes, split, same⟩ := toOption_map_eq_some.mp words
  exact tree.longest_bounds (tree.writable_of_lex split same)

end Document

/-! ## The default factors -/

namespace LayoutFactors

variable {style : Style}

theorem two_le_bestRadius (length : Nat) (style : Style) :
    2 ≤ ({} : LayoutFactors Rat).bestRadius length style := by
  rw [bestRadius, Scalar.larger_eq_max]
  exact Scalar.two_literal ▸ le_max_right _ _

/-- No letter is wider than a bold one of the largest font. -/
theorem glyphWidth_bounds (font : style.fontSize ≤ 36) :
    0 ≤ ({} : LayoutFactors Rat).glyphWidth style ∧
      ({} : LayoutFactors Rat).glyphWidth style ≤ 27.72 := by
  have size : (style.fontSize : Rat) ≤ 36 := by exact_mod_cast font
  have nonneg : (0 : Rat) ≤ style.fontSize := Nat.cast_nonneg _
  unfold glyphWidth
  split
  · norm_num
    linarith
  · norm_num
    linarith

theorem bestRadius_le_of_fontSize {length : Nat} (short : length ≤ maxLabelLength)
    (font : style.fontSize ≤ 36) :
    ({} : LayoutFactors Rat).bestRadius length style ≤ 3548.16 := by
  have letters : (length : Rat) ≤ 256 := by exact_mod_cast short
  obtain ⟨nonneg, width⟩ := glyphWidth_bounds font
  rw [bestRadius, Scalar.larger_eq_max]
  apply max_le
  · have product : (length : Rat) * ({} : LayoutFactors Rat).glyphWidth style ≤ 256 * 27.72 :=
      mul_le_mul letters width nonneg (by norm_num)
    rw [Scalar.two_literal]
    linarith
  · norm_num

end LayoutFactors

namespace Layout

/-- The measures of a layout that can be drawn. -/
structure Roomy (layout : Layout Rat) : Prop where
  horizontal : 0 < layout.horizontalSpacing
  vertical : 0 < layout.verticalSpacing
  marginX : 0 < layout.marginX
  marginY : 0 < layout.marginY
  radius : 2 ≤ layout.radius
  pageWidth : 2 * layout.marginX ≤ layout.pageWidth
  pageHeight : 2 * layout.marginY ≤ layout.pageHeight

/-- The page is not smaller than its margins, whatever the factors. -/
theorem margins_le_page {t : Tree Rat} {radius : Rat} {style : Style} {factors : LayoutFactors Rat}
    {layout : Layout Rat} (laid : compute t radius style factors = .ok layout) :
    2 * layout.marginX ≤ layout.pageWidth ∧ 2 * layout.marginY ≤ layout.pageHeight := by
  obtain ⟨-, width, height, -⟩ := compute_spec laid
  have leftmost := (isLeast_minX layout).2 (Set.mem_insert 0 _)
  have rightmost := (isGreatest_maxX layout).2 (Set.mem_insert 0 _)
  have lowest := (isGreatest_maxY layout).2 (Set.mem_insert 0 _)
  constructor
  · linarith
  · linarith

theorem roomy_of_compute {t : Tree Rat} {radius : Rat} {style : Style} {layout : Layout Rat}
    (fit : 2 ≤ radius) (laid : compute t radius style {} = .ok layout) : layout.Roomy := by
  have made := madeFrom_of_compute laid
  obtain ⟨width, height⟩ := margins_le_page laid
  have edgeX : (0 : Rat) ≤ style.edgeXIncrement := Nat.cast_nonneg _
  have edgeY : (0 : Rat) ≤ style.edgeYIncrement := Nat.cast_nonneg _
  have pageX : (0 : Rat) ≤ style.pageMarginXIncrement := Nat.cast_nonneg _
  have pageY : (0 : Rat) ≤ style.pageMarginYIncrement := Nat.cast_nonneg _
  have circle : (0 : Rat) ≤ style.radiusIncrement := Nat.cast_nonneg _
  refine ⟨?_, ?_, ?_, ?_, ?_, width, height⟩
  · rw [made.horizontal, LayoutFactors.spacing, LayoutFactors.sinThirty]
    norm_num
    linarith
  · rw [made.vertical, LayoutFactors.spacing, LayoutFactors.sinSixty]
    norm_num
    linarith
  · rw [made.marginX, LayoutFactors.margins, LayoutFactors.sinThirty]
    norm_num
    linarith
  · rw [made.marginY, LayoutFactors.margins, LayoutFactors.sinThirty]
    norm_num
    linarith
  · rw [made.radius]
    linarith

end Layout

namespace Session

/-- Under the default factors every input that is read has a layout. -/
theorem exists_parse_of_read {sheet : Stylesheet} {source : String} {capacity : Nat}
    {d : Document Rat} (read : Document.read (initialStyling sheet capacity) source = .ok d) :
    ∃ s, parse source {} sheet capacity = .ok s ∧ s.document = d := by
  obtain ⟨tree, described⟩ := Document.exists_derivation_of_read read
  have rooted : d.description.tree.root ≠ none := by
    rw [described]
    exact Option.some_ne_none 0
  have fit := LayoutFactors.two_le_bestRadius d.description.longestLabel d.styling.cascade.overrides
  obtain ⟨layout, laid⟩ := Layout.exists_layout rooted (two_pos.trans_le fit)
    d.styling.cascade.overrides {}
  obtain ⟨s, parsed, document, -⟩ := exists_parse_of_compute read laid
  exact ⟨s, parsed, document⟩

/-- Under the default factors and any loaded sheet a layout is never refused. The radius that is
asked for is at least two and never larger than what fits 256 bold letters of the largest font,
every input that is read is laid out with it, and what comes out can be drawn. -/
theorem default_layout_roomy {sheet : Stylesheet} (loaded : sheet.Loaded) (source : String)
    (capacity : Nat) :
    (∀ e, parse (K := Rat) source {} sheet capacity ≠ .error (.layout e)) ∧
      (∀ d : Document Rat, Document.read (initialStyling sheet capacity) source = .ok d →
        let fit := ({} : LayoutFactors Rat).bestRadius d.description.longestLabel
          d.styling.cascade.overrides
        2 ≤ fit ∧ fit ≤ 3548.16 ∧ ∃ s, parse source {} sheet capacity = .ok s ∧ s.document = d) ∧
      ∀ s : Session Rat, parse source {} sheet capacity = .ok s →
        1 ≤ s.document.description.longestLabel ∧ s.document.description.longestLabel ≤ 256 ∧
          s.layout.Roomy := by
  refine ⟨?_, fun d read => ⟨?_, ?_, exists_parse_of_read read⟩, fun s parsed => ?_⟩
  · intro e refused
    cases read : Document.read (K := Rat) (initialStyling sheet capacity) source with
    | error failure =>
      simp only [parse, read] at refused
      cases refused
    | ok d =>
      obtain ⟨s, parsed, -⟩ := exists_parse_of_read read
      rw [refused] at parsed
      cases parsed
  · exact LayoutFactors.two_le_bestRadius _ _
  · have valid := Document.valid_of_read (Styling.valid_initialStyling loaded capacity) read
    exact LayoutFactors.bestRadius_le_of_fontSize (Document.longestLabel_bounds read).2
      valid.overrides.fontSize_le
  · obtain ⟨read, laidOut⟩ := parse_eq_ok parsed
    obtain ⟨notEmpty, short⟩ := Document.longestLabel_bounds read
    exact ⟨notEmpty, short, Layout.roomy_of_compute (LayoutFactors.two_le_bestRadius _ _)
      (compute_of_ofDocument laidOut)⟩

/-- The measures of an input with a larger font under a sheet with thicker edges. -/
theorem default_layout_roomy_aliases : ∃ s : Session Rat, thickEdges.Loaded ∧
    parse aliases {} thickEdges = .ok s ∧ s.document.description.longestLabel ≤ 256 ∧
    s.layout.Roomy := by
  obtain ⟨s, parsed⟩ := exists_parse_aliases
  obtain ⟨-, short, roomy⟩ :=
    (default_layout_roomy loaded_thickEdges aliases maxNodeId).2.2 s parsed
  exact ⟨s, loaded_thickEdges, parsed, short, roomy⟩

end Session

end TreeDiagram
