import TreeDiagram.Proofs.Property.Warning
/-!
# What property lines say

An accepted line assigns values to properties of one node or of the whole diagram. The values obey
the rules of their properties, and the node has a number that names a node.
-/

namespace TreeDiagram

/-- What a value is assigned to: a property of a node or of the whole diagram. -/
abbrev Target := LineScope × Property

/-- The assignments that a line makes if it is accepted, those included that a node ignores. -/
def assignmentsOf (line : List Char) : List (Target × Value) :=
  match Line.scanAll line with
  | .ok (scope, pairs, .ok ()) => pairs.map fun a => ((scope, a.property), a.value)
  | _ => []

theorem assignmentsOf_eq {line : List Char} {scope : LineScope} {pairs : List Assignment}
    (said : Line.LineText scope pairs line) :
    assignmentsOf line = pairs.map fun a => ((scope, a.property), a.value) := by
  simp only [assignmentsOf, Line.scanAll_of_lineText said]

/-- What a line assigns stands in it. -/
theorem exists_of_mem_assignmentsOf {line : List Char} {scope : LineScope} {p : Property}
    {v : Value} (member : ((scope, p), v) ∈ assignmentsOf line) :
    ∃ pairs, Line.LineText scope pairs line ∧ ∃ a ∈ pairs, a.property = p ∧ a.value = v := by
  unfold assignmentsOf at member
  split at member
  · next scope' pairs found =>
    obtain ⟨a, inLine, same⟩ := List.mem_map.mp member
    cases same
    exact ⟨pairs, Line.lineText_of_scanAll found, a, inLine, rfl, rfl⟩
  · cases member

theorem admits_of_mem_assignmentsOf {line : List Char} {scope : LineScope} {p : Property}
    {v : Value} (member : ((scope, p), v) ∈ assignmentsOf line) : p.rule.Admits v := by
  obtain ⟨pairs, said, a, inLine, rfl, rfl⟩ := exists_of_mem_assignmentsOf member
  exact said.admits a inLine

theorem le_of_mem_assignmentsOf {line : List Char} {k : NodeId} {p : Property} {v : Value}
    (member : ((.node k, p), v) ∈ assignmentsOf line) : k ≤ maxNodeId := by
  obtain ⟨pairs, said, -⟩ := exists_of_mem_assignmentsOf member
  exact said.named k rfl

end TreeDiagram
