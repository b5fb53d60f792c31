import TreeDiagram.Proofs.Document
import TreeDiagram.Proofs.Property.Styling
import TreeDiagram.Proofs.Text.Deletion
/-!
# What a layout depends on

A layout is that of the tree of an input in the style that the lines for the whole diagram make of
what the sheet gives, and of this style it reads seven properties. Lines for single nodes have no
part in it, and it makes no difference where among the others they stand.
-/

namespace TreeDiagram

/-- The properties that a layout reads. -/
def Property.forLayout : List Property :=
  [fontSize, fontWeight, radiusIncrement, edgeXIncrement, edgeYIncrement, pageMarginXIncrement,
    pageMarginYIncrement]

namespace Style

/-- Two styles that have the same values for some properties. -/
def AgreeOn (properties : List Property) (s t : Style) : Prop :=
  ∀ p ∈ properties, s.get p = t.get p

instance (properties : List Property) (s t : Style) : Decidable (s.AgreeOn properties t) :=
  List.decidableBAll (fun p => s.get p = t.get p) properties

theorem setAll_append (s : Style) (earlier later : List (Property × Value)) :
    s.setAll (earlier ++ later) = (s.setAll earlier).setAll later :=
  List.foldl_append

end Style

section Styles

variable {K : Type} [Scalar K] {s t : Style}

theorem LayoutFactors.bestRadius_of_agree (agree : s.AgreeOn Property.forLayout t)
    (factors : LayoutFactors K) (labelLength : Nat) :
    factors.bestRadius labelLength s = factors.bestRadius labelLength t := by
  have size : s.fontSize = t.fontSize := Value.number.inj (agree .fontSize (by decide))
  have weight : s.fontWeight = t.fontWeight := Value.number.inj (agree .fontWeight (by decide))
  have glyph : factors.glyphWidth s = factors.glyphWidth t := by
    simp only [glyphWidth, size, weight]
  rw [bestRadius, glyph, bestRadius]

theorem LayoutFactors.spacing_of_agree (agree : s.AgreeOn Property.forLayout t)
    (factors : LayoutFactors K) (radius : K) :
    factors.spacing radius s = factors.spacing radius t := by
  have x : s.edgeXIncrement = t.edgeXIncrement :=
    Value.number.inj (agree .edgeXIncrement (by decide))
  have y : s.edgeYIncrement = t.edgeYIncrement :=
    Value.number.inj (agree .edgeYIncrement (by decide))
  simp only [spacing, x, y]

theorem LayoutFactors.margins_of_agree (agree : s.AgreeOn Property.forLayout t)
    (factors : LayoutFactors K) (radius : K) :
    factors.margins radius s = factors.margins radius t := by
  have x : s.pageMarginXIncrement = t.pageMarginXIncrement :=
    Value.number.inj (agree .pageMarginXIncrement (by decide))
  have y : s.pageMarginYIncrement = t.pageMarginYIncrement :=
    Value.number.inj (agree .pageMarginYIncrement (by decide))
  simp only [margins, x, y]

/-- Of a style a layout depends on seven properties only. -/
theorem Layout.compute_of_agree (agree : s.AgreeOn Property.forLayout t) (tree : Tree K)
    (radius : K) (factors : LayoutFactors K) :
    compute tree radius s factors = compute tree radius t factors := by
  have increment : s.radiusIncrement = t.radiusIncrement :=
    Value.number.inj (agree .radiusIncrement (by decide))
  simp only [compute, LayoutFactors.spacing_of_agree agree, LayoutFactors.margins_of_agree agree,
    increment]

/-- The layout that a described tree has in a style. -/
def TreeDescription.layoutIn (d : TreeDescription K) (style : Style) (factors : LayoutFactors K) :
    Except (LayoutError K) (Layout K) :=
  Layout.compute d.tree (factors.bestRadius d.longestLabel style) style factors

theorem TreeDescription.layoutIn_of_agree (agree : s.AgreeOn Property.forLayout t)
    (d : TreeDescription K) (factors : LayoutFactors K) :
    d.layoutIn s factors = d.layoutIn t factors := by
  rw [layoutIn, LayoutFactors.bestRadius_of_agree agree, Layout.compute_of_agree agree, layoutIn]

end Styles

/-- The line is accepted as one for a single node. -/
def isForNode (line : List Char) : Bool :=
  (scanLine line).toOption.any fun scanned => scanned.scope ≠ .global

/-- What a line assigns to the whole diagram. -/
def globalPairs (line : List Char) : List (Property × Value) :=
  (assignmentsOf line).filterMap fun made =>
    if made.1.1 = .global then some (made.1.2, made.2) else none

section Lines

variable {line : List Char} {scope : LineScope} {pairs : List Assignment}

theorem isForNode_iff :
    isForNode line = true ↔ ∃ id pairs, Line.LineText (.node id) pairs line := by
  constructor
  · intro single
    cases accepted : scanLine line with
    | error e =>
      rw [isForNode, accepted] at single
      cases single
    | ok scanned =>
      obtain ⟨scope, pairs, said, rfl⟩ := scanLine_eq_ok_iff.mp accepted
      cases scope with
      | global =>
        rw [isForNode, accepted] at single
        cases single
      | node id => exact ⟨id, pairs, said⟩
  · rintro ⟨id, pairs, said⟩
    rw [isForNode, scanLine_eq_ok_iff.mpr ⟨_, pairs, said, rfl⟩]
    rfl

theorem globalPairs_eq (said : Line.LineText scope pairs line) :
    globalPairs line = if scope = .global then pairs.map Assignment.pair else [] := by
  rw [globalPairs, assignmentsOf_eq said, List.filterMap_map]
  by_cases whole : scope = .global
  · rw [if_pos whole, ← List.filterMap_eq_map]
    exact List.filterMap_congr fun a _ => if_pos whole
  · rw [if_neg whole, List.filterMap_eq_nil_iff]
    exact fun a _ => if_neg whole

/-- A line for a single node assigns nothing to the whole diagram. -/
theorem globalPairs_of_isForNode (single : isForNode line = true) : globalPairs line = [] := by
  obtain ⟨id, pairs, said⟩ := isForNode_iff.mp single
  rw [globalPairs_eq said, if_neg LineScope.noConfusion]

/-- A number with blanks in front of it begins with a digit or a blank. -/
theorem Line.NodeText.exists_cons {id : NodeId} {blanks digits behind : List Char}
    (blank : Blanks blanks) (node : NodeText id digits behind) (after : List Char) :
    ∃ c rest, blanks ++ (digits ++ after) = c :: rest ∧ c ≤ '9' := by
  cases blanks with
  | cons c blanks =>
    have space : c ≤ ' ' := of_decide_eq_true (blank c List.mem_cons_self)
    exact ⟨c, _, rfl, Char.le_trans space (by decide)⟩
  | nil =>
    obtain ⟨c, digits, rfl⟩ := List.exists_cons_of_ne_nil node.notEmpty
    have digit := node.run.inside c List.mem_cons_self
    rw [isDigit, Bool.and_eq_true] at digit
    exact ⟨c, _, rfl, of_decide_eq_true digit.2⟩

theorem Line.LineText.exists_cons {id : NodeId} (said : LineText (.node id) pairs line) :
    ∃ c rest, line = c :: rest ∧ c ≤ '9' := by
  cases said with
  | number blank node => exact node.exists_cons blank _
  | node blank node => exact node.exists_cons blank _

/-- A line that carries the start marker begins with a letter and so is not for a single node. -/
theorem isForNode_of_marked {rest : List Char} (marked : afterStartMarker? line = some rest) :
    isForNode line = false := by
  rw [← Bool.not_eq_true, isForNode_iff]
  rintro ⟨id, pairs, said⟩
  obtain ⟨c, text, rfl, small⟩ := said.exists_cons
  have lower : lowercase c = c := if_neg fun capital =>
    absurd (Char.le_trans capital.1 small) (by decide)
  unfold afterStartMarker? at marked
  dsimp only at marked
  split at marked
  · next begins =>
    have first : lowercase c = 'b' := (List.cons.inj begins).1
    rw [← lower, first] at small
    exact absurd small (by decide)
  · cases marked

end Lines

namespace Document

variable {K : Type} {d next last : Document K}

/-- What a property line does to the style of the whole diagram. -/
theorem overrides_of_readProperties {line : SourceLine}
    (done : readProperties d line = .ok next) :
    next.styling.cascade.overrides =
      d.styling.cascade.overrides.setAll (globalPairs line.text) := by
  obtain ⟨scanned, after, accepted, taken, rfl⟩ := readProperties_eq_ok.mp done
  obtain ⟨scope, pairs, said, rfl⟩ := scanLine_eq_ok_iff.mp accepted
  rw [globalPairs_eq said]
  cases scope with
  | global => exact (Styling.commit_global rfl taken).2
  | node id =>
    have kept := (Styling.commit_node rfl taken).1
    exact congrArg Cascade.overrides kept

theorem overrides_of_foldlM {lines : List SourceLine}
    (done : lines.foldlM readProperties d = .ok last) :
    last.styling.cascade.overrides = d.styling.cascade.overrides.setAll
      (lines.flatMap fun line => globalPairs line.text) := by
  induction lines generalizing d with
  | nil =>
    cases done
    rfl
  | cons line later ih =>
    rw [List.foldlM_cons] at done
    obtain ⟨next, first, done⟩ := bind_eq_ok.mp done
    rw [ih done, overrides_of_readProperties first, List.flatMap_cons, Style.setAll_append]

/-- A line for the whole diagram that is accepted somewhere is accepted everywhere. -/
theorem exists_readProperties {line line' : SourceLine} (same : line'.text = line.text)
    (whole : isForNode line.text = false) (done : readProperties d line = .ok next)
    (d' : Document K) : ∃ next', readProperties d' line' = .ok next' := by
  obtain ⟨scanned, after, accepted, -, -⟩ := readProperties_eq_ok.mp done
  obtain ⟨scope, pairs, said, rfl⟩ := scanLine_eq_ok_iff.mp accepted
  cases scope with
  | node id =>
    rw [isForNode_iff.mpr ⟨id, pairs, said⟩] at whole
    cases whole
  | global =>
    rw [← same] at accepted
    exact ⟨_, readProperties_eq_ok.mpr ⟨_, _, accepted, rfl, rfl⟩⟩

/-- Lines that are accepted are still accepted where those for single nodes are left out. -/
theorem exists_foldlM {lines lines' : List SourceLine}
    (kept : lines'.map SourceLine.text =
      (lines.map SourceLine.text).filter fun said => !isForNode said)
    (done : lines.foldlM readProperties d = .ok last) (d' : Document K) :
    ∃ last', lines'.foldlM readProperties d' = .ok last' := by
  induction lines generalizing d d' lines' with
  | nil =>
    rw [List.map_nil, List.filter_nil, List.map_eq_nil_iff] at kept
    rw [kept]
    exact ⟨d', rfl⟩
  | cons line later ih =>
    rw [List.foldlM_cons] at done
    obtain ⟨next, first, done⟩ := bind_eq_ok.mp done
    rw [List.map_cons] at kept
    cases single : isForNode line.text with
    | true =>
      rw [List.filter_cons_of_neg (by simp [single])] at kept
      exact ih kept done d'
    | false =>
      rw [List.filter_cons_of_pos (by simp [single]), List.map_eq_cons_iff] at kept
      obtain ⟨line', later', rfl, same, kept⟩ := kept
      obtain ⟨next', first'⟩ := exists_readProperties same single first d'
      rw [List.foldlM_cons, first']
      exact ih kept done next'

/-- The words behind the start marker of an input. -/
def treeWords? (source : String) : Option (List Token) :=
  (saidLines source).head?.bind fun line => (afterStartMarker? line).bind fun rest =>
    (lex rest).toOption.map (List.map Lexeme.token)

/-- What the later lines of an input assign to the whole diagram, in the order of the lines. -/
def globalsIn (source : String) : List (Property × Value) :=
  (saidLines source).tail.flatMap globalPairs

section Append

variable {source source' : String} {more : List (List Char)}

theorem treeWords?_append (lines : saidLines source' = saidLines source ++ more)
    (begun : saidLines source ≠ []) : treeWords? source' = treeWords? source := by
  rw [treeWords?, treeWords?, lines, List.head?_append_of_ne_nil _ begun]

theorem globalsIn_append (lines : saidLines source' = saidLines source ++ more)
    (begun : saidLines source ≠ []) :
    globalsIn source' = globalsIn source ++ more.flatMap globalPairs := by
  rw [globalsIn, globalsIn, lines, List.tail_append_of_ne_nil begun, List.flatMap_append]

end Append

theorem globalsIn_withoutLines {source : String} {first : List Char} {later : List (List Char)}
    (lines : saidLines source = first :: later) (kept : isForNode first = false) :
    globalsIn (withoutLines isForNode source) = globalsIn source := by
  rw [globalsIn, globalsIn, saidLines_withoutLines, lines,
    List.filter_cons_of_pos (by simp [kept]), List.tail_cons, List.tail_cons]
  clear lines
  induction later with
  | nil => rfl
  | cons line later ih =>
    cases single : isForNode line with
    | true =>
      rw [List.filter_cons_of_neg (by simp [single]), ih, List.flatMap_cons,
        globalPairs_of_isForNode single, List.nil_append]
    | false =>
      rw [List.filter_cons_of_pos (by simp [single]), List.flatMap_cons, ih, List.flatMap_cons]

variable [Scalar K] {styling : Styling} {source : String}

theorem saidLines_ne_nil_of_read (h : read styling source = .ok d) : saidLines source ≠ [] := by
  obtain ⟨first, later, -, -, lines, -⟩ := exists_lines_of_read h
  rw [saidLines, lines, List.map_cons]
  exact List.cons_ne_nil _ _

theorem exists_treeWords_of_read (h : read styling source = .ok d) :
    ∃ tree : TreeDescription.Derivation, treeWords? source = some tree.words := by
  obtain ⟨first, later, rest, tree, lines, marked, words, -⟩ := exists_lines_of_read h
  refine ⟨tree, ?_⟩
  rw [treeWords?, saidLines, lines, List.map_cons, List.head?_cons, Option.bind_some, marked]
  exact words

/-- The words behind the marker determine the tree. -/
theorem description_of_treeWords (h : read styling source = .ok d)
    {tree : TreeDescription.Derivation} (same : treeWords? source = some tree.words) :
    d.description = tree.description := by
  obtain ⟨first, later, rest, tree', lines, marked, words, done⟩ := exists_lines_of_read h
  rw [treeWords?, saidLines, lines, List.map_cons, List.head?_cons, Option.bind_some,
    marked] at same
  have begun : readStart styling first =
      .ok ({ description := tree'.description, styling } : Document K) :=
    readStart_of_derivation marked words
  have begun' : readStart styling first =
      .ok ({ description := tree.description, styling } : Document K) :=
    readStart_of_derivation marked same
  rw [begun'] at begun
  rw [description_of_foldlM done]
  exact congrArg description (Except.ok.inj begun).symm

theorem overrides_of_read (h : read styling source = .ok d) :
    d.styling.cascade.overrides = styling.cascade.overrides.setAll (globalsIn source) := by
  obtain ⟨first, later, rest, tree, lines, -, -, done⟩ := exists_lines_of_read h
  rw [overrides_of_foldlM done, globalsIn, saidLines, lines, List.map_cons, List.tail_cons,
    List.flatMap_map]

/-- An input that is read is still read without its lines for single nodes. -/
theorem exists_read_withoutLines (h : read styling source = .ok d) :
    ∃ d' : Document K, read styling (withoutLines isForNode source) = .ok d' ∧
      d'.description = d.description ∧
      d'.styling.cascade.overrides = d.styling.cascade.overrides := by
  obtain ⟨first, later, rest, tree, lines, marked, words, done⟩ := exists_lines_of_read h
  have said : saidLines source = first.text :: later.map SourceLine.text := by
    rw [saidLines, lines, List.map_cons]
  have kept : isForNode first.text = false := isForNode_of_marked marked
  have left := saidLines_withoutLines isForNode source
  rw [said, List.filter_cons_of_pos (by simp [kept]), saidLines, List.map_eq_cons_iff] at left
  obtain ⟨first', later', lines', same, left⟩ := left
  obtain ⟨d', done'⟩ := exists_foldlM left done { description := tree.description, styling }
  rw [← same] at marked
  have read' : read styling (withoutLines isForNode source) = .ok d' := by
    simp only [read, lines', readLines, readStart_of_derivation marked words, bind, Except.bind]
    exact done'
  refine ⟨d', read', ?_, ?_⟩
  · rw [description_of_foldlM done', description_of_foldlM done]
  · rw [overrides_of_read read', overrides_of_read h, globalsIn_withoutLines said kept]

end Document

namespace Session

variable {K : Type} [Scalar K] {source source' : String} {factors : LayoutFactors K}
  {sheet : Stylesheet} {capacity capacity' : Nat} {s s' : Session K}

/-- A layout is that of the tree of an input in the style of the whole diagram. -/
theorem layoutIn_of_parse (parsed : parse source factors sheet capacity = .ok s)
    {tree : TreeDescription.Derivation} (words : Document.treeWords? source = some tree.words) :
    tree.description.layoutIn s.overrides factors = .ok s.layout := by
  obtain ⟨read, laidOut⟩ := parse_eq_ok parsed
  rw [← Document.description_of_treeWords read words]
  exact compute_of_ofDocument laidOut

theorem overrides_of_parse (parsed : parse source factors sheet capacity = .ok s) :
    s.overrides = (sheet.apply {}).overrides.setAll (Document.globalsIn source) :=
  Document.overrides_of_read (parse_eq_ok parsed).1

/-- An input with the words of a derivation is laid out if its later lines are read. -/
theorem exists_parse_of_treeWords (sheet : Stylesheet) {source : String}
    {tree : TreeDescription.Derivation} (words : Document.treeWords? source = some tree.words)
    (laidOut : (((significantLines source.toList).tail.foldlM Document.readProperties
      ({ description := tree.description, styling := initialStyling sheet maxNodeId } :
        Document K)).toOption.bind fun d => (ofDocument {} d).toOption).isSome) :
    ∃ s : Session K, parse source {} sheet = .ok s := by
  cases lines : significantLines source.toList with
  | nil =>
    rw [Document.treeWords?, saidLines, lines] at words
    cases words
  | cons first later =>
    rw [Document.treeWords?, saidLines, lines, List.map_cons, List.head?_cons,
      Option.bind_some] at words
    obtain ⟨rest, marked, words⟩ := Option.bind_eq_some_iff.mp words
    rw [lines] at laidOut
    obtain ⟨s, parsed, -⟩ := exists_parse_of_lines (P := fun _ => True) {} sheet lines marked words
      (by simpa using laidOut)
    exact ⟨s, parsed⟩

/-- Two inputs with the same words behind the start marker whose styles agree on the seven
properties have the same layout. Without its lines for single nodes an input is still read and has
the layout that it had. The style is made by all lines for the whole diagram, wherever they stand:
one that is put behind all others counts for the whole tree. -/
theorem node_lines_move_nothing (factors : LayoutFactors K) (sheet : Stylesheet) :
    (∀ {source source' : String} {capacity capacity' : Nat} {s s' : Session K},
      parse source factors sheet capacity = .ok s →
      parse source' factors sheet capacity' = .ok s' →
      Document.treeWords? source = Document.treeWords? source' →
      s.overrides.AgreeOn Property.forLayout s'.overrides → s.layout = s'.layout) ∧
    (∀ {source : String} {capacity : Nat} {s : Session K},
      parse source factors sheet capacity = .ok s →
      ∃ s', parse (withoutLines isForNode source) factors sheet capacity = .ok s' ∧
        s'.layout = s.layout) ∧
    (∀ {source : String} {capacity : Nat} {s : Session K},
      parse source factors sheet capacity = .ok s →
      s.overrides = (sheet.apply {}).overrides.setAll (Document.globalsIn source) ∧
        ∃ tree : TreeDescription.Derivation, Document.treeWords? source = some tree.words ∧
          tree.description.layoutIn s.overrides factors = .ok s.layout) ∧
    (∀ {source source' : String} {capacity capacity' : Nat} {s s' : Session K} {line : List Char}
      {pairs : List Assignment}, parse source factors sheet capacity = .ok s →
      parse source' factors sheet capacity' = .ok s' →
      saidLines source' = saidLines source ++ [line] → Line.LineText .global pairs line →
      ∃ tree : TreeDescription.Derivation, Document.treeWords? source = some tree.words ∧
        tree.description.layoutIn (s.overrides.setAll (pairs.map Assignment.pair)) factors =
          .ok s'.layout) := by
  refine ⟨?_, ?_, ?_, ?_⟩
  · intro source source' capacity capacity' s s' parsed parsed' same agree
    obtain ⟨tree, words⟩ := Document.exists_treeWords_of_read (parse_eq_ok parsed).1
    have laid := layoutIn_of_parse parsed words
    have laid' := layoutIn_of_parse parsed' (same.symm.trans words)
    rw [TreeDescription.layoutIn_of_agree agree, laid'] at laid
    exact (Except.ok.inj laid).symm
  · intro source capacity s parsed
    obtain ⟨read, laidOut⟩ := parse_eq_ok parsed
    obtain ⟨d, read', description, overrides⟩ := Document.exists_read_withoutLines read
    have laid : d.description.layoutIn d.styling.cascade.overrides factors = .ok s.layout := by
      rw [description, overrides]
      exact compute_of_ofDocument laidOut
    obtain ⟨s', parsed', -, layout⟩ := exists_parse_of_compute read' laid
    exact ⟨s', parsed', layout⟩
  · intro source capacity s parsed
    obtain ⟨tree, words⟩ := Document.exists_treeWords_of_read (parse_eq_ok parsed).1
    exact ⟨overrides_of_parse parsed, tree, words, layoutIn_of_parse parsed words⟩
  · intro source source' capacity capacity' s s' line pairs parsed parsed' lines said
    obtain ⟨tree, words⟩ := Document.exists_treeWords_of_read (parse_eq_ok parsed).1
    have begun := Document.saidLines_ne_nil_of_read (parse_eq_ok parsed).1
    have words' : Document.treeWords? source' = some tree.words := by
      rw [Document.treeWords?_append lines begun, words]
    have more : Document.globalsIn source' =
        Document.globalsIn source ++ pairs.map Assignment.pair := by
      rw [Document.globalsIn_append lines begun, List.flatMap_singleton, globalPairs_eq said,
        if_pos rfl]
    refine ⟨tree, words, ?_⟩
    rw [overrides_of_parse parsed, ← Style.setAll_append, ← more, ← overrides_of_parse parsed']
    exact layoutIn_of_parse parsed' words'

/-- Two children, each with a line of its own. -/
def adorned : String :=
  "bitree = 1(2,3)\n2[NodeRadius=9, FontSize=20]\n3[NodeLabel=wide]\n"

/-- The same with wider edges, which are asked for last. -/
def widened : String :=
  "bitree = 1(2,3)\n2[NodeRadius=9, FontSize=20]\n3[NodeLabel=wide]\n[EdgeXIncrement=40]\n"

/-- Edges as wide and nodes without lines of their own. -/
def unadorned : String :=
  "BiTree=1( 2, 3 )\n[EdgeXIncrement=40]\n\n[FillColor=7]\n"

example : withoutLines isForNode widened = "bitree = 1(2,3)\n[EdgeXIncrement=40]\n" := by
  decide +kernel

/-- The tree of all three. -/
def three : TreeDescription.Derivation := .branch "1" (.leaf "2") (.leaf "3")

/-- Where the nodes of the three stand in a style, without rounding. -/
def threeAcross (style : Style) : Option (List Rat) :=
  (three.description.layoutIn style {}).toOption.map fun layout =>
    layout.nodes.toList.map PlacedNode.x

theorem across_of_parse {source : String} {s : Session Rat} (parsed : parse source = .ok s)
    (words : Document.treeWords? source = some three.words) :
    threeAcross s.overrides = some (s.layout.nodes.toList.map PlacedNode.x) := by
  rw [threeAcross, layoutIn_of_parse parsed words]
  rfl

theorem node_lines_move_nothing_widened : ∃ s s' t : Session Rat,
    parse widened = .ok s ∧ parse unadorned = .ok s' ∧ parse adorned = .ok t ∧
      Document.treeWords? widened = Document.treeWords? unadorned ∧
      s.overrides.AgreeOn Property.forLayout s'.overrides ∧ s.layout = s'.layout ∧
      (∃ s'', parse (withoutLines isForNode widened) = .ok s'' ∧ s''.layout = s.layout) ∧
      saidLines widened = saidLines adorned ++ ["[EdgeXIncrement=40]".toList] ∧
      (∃ tree : TreeDescription.Derivation, Document.treeWords? adorned = some tree.words ∧
        tree.description.layoutIn (t.overrides.setAll [(.edgeXIncrement, .number 40)]) {} =
          .ok s.layout) ∧
      t.layout.nodes.toList.map PlacedNode.x = [347 / 40, 0, 347 / 20] ∧
      s.layout.nodes.toList.map PlacedNode.x = [1747 / 40, 0, 1747 / 20] := by
  have words : Document.treeWords? adorned = some three.words ∧
      Document.treeWords? widened = some three.words ∧
      Document.treeWords? unadorned = some three.words := by decide +kernel
  obtain ⟨t, narrow⟩ := exists_parse_of_treeWords (K := Rat) {} words.1 (by decide +kernel)
  obtain ⟨s, wide⟩ := exists_parse_of_treeWords (K := Rat) {} words.2.1 (by decide +kernel)
  obtain ⟨s', wide'⟩ := exists_parse_of_treeWords (K := Rat) {} words.2.2 (by decide +kernel)
  obtain ⟨alike, deleted, made, behind⟩ :=
    node_lines_move_nothing ({} : LayoutFactors Rat) {}
  have same := words.2.1.trans words.2.2.symm
  have agree : s.overrides.AgreeOn Property.forLayout s'.overrides := by
    rw [(made wide).1, (made wide').1]
    decide +kernel
  have last : saidLines widened = saidLines adorned ++ ["[EdgeXIncrement=40]".toList] := by
    decide +kernel
  have said : Line.LineText .global [⟨.edgeXIncrement, .number 40, ⟨1, 18⟩⟩]
      "[EdgeXIncrement=40]".toList := Line.lineText_of_scanAll (by decide +kernel)
  have put := behind narrow wide last said
  rw [List.map_singleton, Assignment.pair] at put
  have stand := across_of_parse narrow words.1
  have stand' := across_of_parse wide words.2.1
  rw [(made narrow).1] at stand
  rw [(made wide).1] at stand'
  refine ⟨s, s', t, wide, wide', narrow, same, agree, alike wide wide' same agree, deleted wide,
    last, put, ?_, ?_⟩
  · exact Option.some.inj (stand.symm.trans (by decide +kernel))
  · exact Option.some.inj (stand'.symm.trans (by decide +kernel))

end Session

end TreeDiagram
