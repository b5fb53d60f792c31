import TreeDiagram.Session
import TreeDiagram.Proofs.Document
import TreeDiagram.Proofs.Property.Styling
import TreeDiagram.Proofs.Stylesheet
import TreeDiagram.Proofs.Text.Numeral
/-!
# Where the values of a style come from

For a label and a property the last assignment to the node of the label counts, else the last one to
the whole diagram, else what the stylesheet gives, else what is built in. The order in which nodes
are visited makes no difference, nor does anything that was asked for before.
-/

namespace TreeDiagram

/-- The input assigns no value to a property of a node that the label denotes, or none that a node
takes. -/
def Unowned (source label : String) (p : Property) : Prop :=
  p.scope = .base → ∀ k, Numeral.Denotes label.toList k →
    lastValue? (Document.assignmentsIn source) (.node k, p) = none

/-- The value that a property has for a label under a stylesheet and an input. -/
inductive Cascaded (sheet : Stylesheet) (source : String) (label : String) (p : Property) :
    Value → Prop
  | own {k : NodeId} {v : Value} (base : p.scope = .base)
      (denotes : Numeral.Denotes label.toList k)
      (last : lastValue? (Document.assignmentsIn source) (.node k, p) = some v) :
      Cascaded sheet source label p v
  | whole {v : Value} (noOwn : Unowned source label p)
      (last : lastValue? (Document.assignmentsIn source) (.global, p) = some v) :
      Cascaded sheet source label p v
  | given {v : Value} (noOwn : Unowned source label p)
      (noWhole : lastValue? (Document.assignmentsIn source) (.global, p) = none)
      (default : lastValue? sheet.defaults p = some v) : Cascaded sheet source label p v
  | builtIn (noOwn : Unowned source label p)
      (noWhole : lastValue? (Document.assignmentsIn source) (.global, p) = none)
      (noDefault : lastValue? sheet.defaults p = none) :
      Cascaded sheet source label p (({} : Style).get p)

theorem Document.mem_assignmentsOf_of_mem {source : String} {made : Target × Value}
    (member : made ∈ assignmentsIn source) : ∃ line, made ∈ assignmentsOf line := by
  obtain ⟨line, -, inLine⟩ := List.mem_flatMap.mp member
  exact ⟨line.text, inLine⟩

namespace Session

variable {K : Type} [Scalar K]

/-- The same session after passes over its nodes that left a style in view. -/
def withView (s : Session K) (view : Style) : Session K :=
  { s with document.styling.cascade.view := view }

theorem styling_reflects {source : String} {factors : LayoutFactors K} {sheet : Stylesheet}
    {capacity : Nat} {s : Session K} (loaded : sheet.Loaded)
    (parsed : parse source factors sheet capacity = .ok s) :
    s.document.styling.Reflects sheet.defaults (Document.assignmentsIn source) := by
  obtain ⟨read, -⟩ := parse_eq_ok parsed
  refine Document.reflects_of_read (Styling.reflects_given (fun d member => ?_) capacity) read
  exact Rule.takes_of_admits (loaded.admits d member)

/-- The style of a node is that of the whole diagram with the values that the table holds. -/
theorem get_styleOf {given : List (Property × Value)} {source : String} {styling : Styling}
    (reflects : styling.Reflects given (Document.assignmentsIn source)) (node : Option NodeId)
    (p : Property) :
    (styling.cascade.styleOf (node.bind styling.table.get?)).get p =
      (node.bind fun k => styling.table.value? k p.index).getD
        (styling.cascade.overrides.get p) := by
  rw [Cascade.styleOf, Style.get_setAll, PropertyTable.lastValue?_ownAssignments]
  rintro ⟨q, v⟩ member
  obtain ⟨k, -, held⟩ := PropertyTable.value?_of_mem_ownAssignments member
  rw [reflects.own] at held
  split at held
  · obtain ⟨line, made⟩ := Document.mem_assignmentsOf_of_mem (mem_of_lastValue? held)
    exact Rule.takes_of_admits (admits_of_mem_assignmentsOf made)
  · cases held

/-- What the table holds for a label is what was assigned last to the node that it denotes. -/
theorem held_eq_some_iff {given : List (Property × Value)} {source : String} {styling : Styling}
    (reflects : styling.Reflects given (Document.assignmentsIn source)) (label : String)
    (p : Property) (v : Value) :
    ((nodeOfLabel? label).bind fun k => styling.table.value? k p.index) = some v ↔
      p.scope = .base ∧ ∃ k, Numeral.Denotes label.toList k ∧
        lastValue? (Document.assignmentsIn source) (.node k, p) = some v := by
  rw [Option.bind_eq_some_iff]
  constructor
  · rintro ⟨k, named, held⟩
    rw [reflects.own] at held
    split at held
    · next base => exact ⟨base, k, (nodeOfLabel?_eq_some_iff.mp named).1, held⟩
    · cases held
  · rintro ⟨base, k, denotes, last⟩
    obtain ⟨line, made⟩ := Document.mem_assignmentsOf_of_mem (mem_of_lastValue? last)
    -- a label may denote a number that names no node, but nothing is ever assigned to such a number
    have inside : k ≤ maxNodeId := le_of_mem_assignmentsOf made
    refine ⟨k, nodeOfLabel?_eq_some_iff.mpr ⟨denotes, inside⟩, ?_⟩
    rw [reflects.own, if_pos base, last]

theorem get_styleOf_eq_iff {sheet : Stylesheet} {source : String} {styling : Styling}
    (reflects : styling.Reflects sheet.defaults (Document.assignmentsIn source)) (label : String)
    (p : Property) (v : Value) :
    (styling.cascade.styleOf (styling.table.findLabel? label)).get p = v ↔
      Cascaded sheet source label p v := by
  rw [PropertyTable.findLabel?, get_styleOf reflects, reflects.whole]
  have held := held_eq_some_iff reflects label p
  have nothing (noOwn : Unowned source label p) :
      ((nodeOfLabel? label).bind fun k => styling.table.value? k p.index) = none := by
    refine Option.eq_none_iff_forall_ne_some.mpr fun v found => ?_
    obtain ⟨base, k, denotes, last⟩ := (held v).mp found
    rw [noOwn base k denotes] at last
    cases last
  constructor
  · rintro rfl
    cases own : (nodeOfLabel? label).bind fun k => styling.table.value? k p.index with
    | some v =>
      obtain ⟨base, k, denotes, last⟩ := (held v).mp own
      exact .own base denotes last
    | none =>
      have noOwn : Unowned source label p := by
        intro base k denotes
        refine Option.eq_none_iff_forall_ne_some.mpr fun v last => ?_
        rw [(held v).mpr ⟨base, k, denotes, last⟩] at own
        cases own
      cases whole : lastValue? (Document.assignmentsIn source) (.global, p) with
      | some v => exact .whole noOwn whole
      | none =>
        cases default : lastValue? sheet.defaults p with
        | some v => exact .given noOwn whole default
        | none => exact .builtIn noOwn whole default
  · intro cascaded
    cases cascaded with
    | own base denotes last => rw [(held v).mpr ⟨base, _, denotes, last⟩, Option.getD_some]
    | whole noOwn last =>
      rw [nothing noOwn, last, Option.getD_none, Option.some_or, Option.getD_some]
    | given noOwn noWhole default =>
      rw [nothing noOwn, noWhole, default, Option.getD_none, Option.none_or, Option.getD_some]
    | builtIn noOwn noWhole noDefault =>
      rw [nothing noOwn, noWhole, noDefault, Option.getD_none, Option.none_or, Option.getD_none]

omit [Scalar K] in
/-- Visiting all nodes gives each of them the style that it has on its own. -/
theorem styledNodes_eq (s : Session K) : s.styledNodes = s.layout.nodes.toList.map fun n =>
    (n, s.cascade.styleOf (s.table.findLabel? n.label)) := by
  let style (n : PlacedNode K) := s.cascade.styleOf (s.table.findLabel? n.label)
  have styles : s.cascade.seed.styles
      (s.layout.nodes.toList.map fun n => s.table.findLabel? n.label) =
        s.layout.nodes.toList.map style := by
    rw [Cascade.styles_seed, List.map_map]
    rfl
  have pairs := List.zip_map' (l := s.layout.nodes.toList) (f := id) (g := style)
  rw [List.map_id, ← styles] at pairs
  exact pairs

/-- Every property of every node has the value that its label, the input and the stylesheet give it,
whether one node is asked for or all are visited, and whatever was asked for before. -/
theorem style_cascaded {source : String} {factors : LayoutFactors K} {sheet : Stylesheet}
    {capacity : Nat} {s : Session K} (loaded : sheet.Loaded)
    (parsed : parse source factors sheet capacity = .ok s) (view : Style) (p : Property)
    (v : Value) :
    (∀ label, ((s.withView view).resolveLabel label).get p = v ↔
        Cascaded sheet source label p v) ∧
      (∀ n, ((s.withView view).resolve n).get p = v ↔ Cascaded sheet source n.label p v) ∧
      (s.withView view).styledNodes.map Prod.fst = s.layout.nodes.toList ∧
      ∀ visited ∈ (s.withView view).styledNodes,
        visited.2.get p = v ↔ Cascaded sheet source visited.1.label p v := by
  have reflects := styling_reflects loaded parsed
  have styled := (s.withView view).styledNodes_eq
  refine ⟨fun label => get_styleOf_eq_iff reflects label p v,
    fun n => get_styleOf_eq_iff reflects n.label p v, ?_, ?_⟩
  · rw [styled, List.map_map]
    exact List.map_id _
  · intro visited member
    rw [styled] at member
    obtain ⟨n, -, rfl⟩ := List.mem_map.mp member
    exact get_styleOf_eq_iff reflects n.label p v

/-- An input in which two labels denote the same node, one of whose properties is set twice. -/
def aliases : String :=
  "BiTree = 5(0x5,7)\n[FontSize=14]\n5[FillColor=1, FillColor=0x2]\n"

/-- A sheet with a single default. -/
def thickEdges : Stylesheet := { defaults := [(.edgeWidth, .number 3)] }

theorem loaded_thickEdges : thickEdges.Loaded := by
  have read : (Stylesheet.parse "[defaults]\nEdgeWidth = 3").toOption.map Stylesheet.defaults =
      some thickEdges.defaults := by decide +kernel
  obtain ⟨sheet, parsed, same⟩ := toOption_map_eq_some.mp read
  exact .inr ⟨_, sheet, parsed, same.symm⟩

theorem exists_parse_aliases : ∃ s : Session Rat, parse aliases {} thickEdges = .ok s := by
  let tree : TreeDescription.Derivation := .branch "5" (.leaf "0x5") (.leaf "7")
  have lines : significantLines aliases.toList =
      [⟨0, "BiTree = 5(0x5,7)".toList⟩, ⟨18, "[FontSize=14]".toList⟩,
        ⟨32, "5[FillColor=1, FillColor=0x2]".toList⟩] := by decide +kernel
  have marked : afterStartMarker? "BiTree = 5(0x5,7)".toList = some " 5(0x5,7)".toList := by
    decide +kernel
  have words : (lex " 5(0x5,7)".toList).toOption.map (List.map Lexeme.token) =
      some tree.words := by decide +kernel
  obtain ⟨s, parsed, -⟩ := exists_parse_of_lines (K := Rat) (P := fun _ => True) {} thickEdges
    lines marked words (by decide +kernel)
  exact ⟨s, parsed⟩

theorem style_cascaded_aliases : ∃ s : Session Rat, thickEdges.Loaded ∧
    parse aliases {} thickEdges = .ok s ∧
    ((s.withView {}).resolveLabel "0x5").get .fillColor = .number 2 ∧
    ((s.withView {}).resolveLabel "0x5").get .fontSize = .number 14 ∧
    ((s.withView {}).resolveLabel "0x5").get .edgeWidth = .number 3 := by
  obtain ⟨s, parsed⟩ := exists_parse_aliases
  have made : Document.assignmentsIn aliases =
      [((.global, .fontSize), .number 14), ((.node 5, .fillColor), .number 1),
        ((.node 5, .fillColor), .number 2)] := by decide +kernel
  have five : Numeral.Denotes "0x5".toList 5 := Numeral.read?_eq_some_iff.mp (by decide +kernel)
  have result := style_cascaded loaded_thickEdges parsed {}
  refine ⟨s, loaded_thickEdges, parsed, ?_, ?_, ?_⟩
  · exact ((result .fillColor _).1 "0x5").mpr (.own rfl five (by rw [made]; rfl))
  · exact ((result .fontSize _).1 "0x5").mpr
      (.whole (fun _ k _ => by simp [made, lastValue?]) (by rw [made]; rfl))
  · exact ((result .edgeWidth _).1 "0x5").mpr
      (.given (fun _ k _ => by simp [made, lastValue?]) (by rw [made]; rfl) rfl)

end Session

end TreeDiagram
