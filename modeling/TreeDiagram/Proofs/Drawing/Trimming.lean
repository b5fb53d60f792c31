import TreeDiagram.Proofs.Document
import TreeDiagram.Proofs.Drawing.Clipping
import TreeDiagram.Proofs.Layout.Placement
/-!
# Where edges end

An edge is cut off at the radius of the child's circle at both of its ends. It ends on the circle of
the child, and on that of the parent only if the two circles are of one size.
-/

namespace TreeDiagram

namespace Session

/-- The place of a node on the page. -/
noncomputable def center (s : Session Rat) (n : PlacedNode Rat) : Point ℝ :=
  s.layout.real.pointOf n.real

/-- The radius that the circle of a node is drawn with. -/
noncomputable def circleRadius (s : Session Rat) (n : PlacedNode Rat) : ℝ :=
  drawnRadius s.layout.real (s.resolve n)

/-- The edge that is drawn from a node to its parent. -/
noncomputable def drawnEdge? (s : Session Rat) (n : PlacedNode Rat) : Option (Segment ℝ) :=
  edgeOf? s.layout.real n.real (s.resolve n)

variable {source : String} {factors : LayoutFactors Rat} {sheet : Stylesheet} {capacity : Nat}
  {s : Session Rat} {n p : PlacedNode Rat} {e : Segment ℝ}

theorem circleRadius_pos (parsed : parse source factors sheet capacity = .ok s)
    (n : PlacedNode Rat) : 0 < s.circleRadius n := by
  have shared := Layout.radius_pos_of_compute (compute_of_ofDocument (parse_eq_ok parsed).2)
  unfold circleRadius drawnRadius
  split
  · next own => exact Nat.cast_pos.mpr own
  · exact Rat.cast_pos.mpr shared

/-- An edge is the line between the centres of two circles, shortened at both ends by the radius of
the child's circle. -/
theorem eq_between_of_drawnEdge? (parent : s.layout.parentOf? n = some p)
    (drawn : s.drawnEdge? n = some e) : s.center n ≠ s.center p ∧
      e = Segment.between (s.center n) (s.center p) (s.circleRadius n) (s.circleRadius n) := by
  rw [drawnEdge?, edgeOf?_real parent, Segment.clip_eq_some_iff] at drawn
  exact ⟨Segment.ne_of_hasRoom drawn.1, drawn.2⟩

/-- Both ends of an edge are one radius of the child's circle away from a centre. So the edge is the
part of the line between the centres that is outside both circles only where the parent's circle has
the same radius. -/
theorem edge_trimmed_by_child (parsed : parse source factors sheet capacity = .ok s)
    (parent : s.layout.parentOf? n = some p) (drawn : s.drawnEdge? n = some e) :
    e.childEnd.distance (s.center n) = s.circleRadius n ∧
    e.parentEnd.distance (s.center p) = s.circleRadius n ∧
    (e = Segment.between (s.center n) (s.center p) (s.circleRadius n) (s.circleRadius p) ↔
      s.circleRadius p = s.circleRadius n) := by
  obtain ⟨apart, rfl⟩ := eq_between_of_drawnEdge? parent drawn
  have own := abs_of_pos (circleRadius_pos parsed n)
  obtain ⟨atChild, atParent⟩ :=
    Segment.distance_between apart (s.circleRadius n) (s.circleRadius n)
  refine ⟨atChild.trans own, atParent.trans own, ?_⟩
  rw [Segment.between_inj apart, eq_self, true_and, eq_comm]

/-- An input with a parent whose circle is larger than those of its children. -/
def wideParent : String :=
  "bitree = 1(2,3)\n1[NodeRadius=8]\n"

theorem exists_parse_wideParent : ∃ s : Session Rat, parse wideParent = .ok s ∧
    s.layout.radius = 9 / 2 ∧ ∃ n ∈ s.layout.nodes.toList, ∃ p ∈ s.layout.nodes.toList,
      s.layout.parentOf? n = some p ∧ s.layout.RoomBetween n p ∧
        (s.resolve n).nodeRadius = 0 ∧ (s.resolve p).nodeRadius = 8 := by
  let tree : TreeDescription.Derivation := .branch "1" (.leaf "2") (.leaf "3")
  have lines : significantLines wideParent.toList =
      [⟨0, "bitree = 1(2,3)".toList⟩, ⟨16, "1[NodeRadius=8]".toList⟩] := by decide +kernel
  have marked : afterStartMarker? "bitree = 1(2,3)".toList = some " 1(2,3)".toList := by
    decide +kernel
  have words : (lex " 1(2,3)".toList).toOption.map (List.map Lexeme.token) = some tree.words := by
    decide +kernel
  exact exists_parse_of_lines {} {} lines marked words (by decide +kernel)

/-- The edge from a child of `wideParent` and the sizes of the circles at its ends. -/
theorem exists_drawnEdge_wideParent : ∃ (s : Session Rat) (n p : PlacedNode Rat) (e : Segment ℝ),
    parse wideParent = .ok s ∧ n ∈ s.layout.nodes ∧ s.layout.parentOf? n = some p ∧
      s.drawnEdge? n = some e ∧ s.circleRadius n = (9 / 2 : Rat) ∧ s.circleRadius p = 8 := by
  obtain ⟨s, parsed, shared, n, member, p, -, parent, room, childPlain, parentOwn⟩ :=
    exists_parse_wideParent
  have positive := Layout.radius_pos_of_compute (compute_of_ofDocument (parse_eq_ok parsed).2)
  have drawn := (isSome_edgeOf?_real_iff positive parent childPlain).mpr room
  obtain ⟨e, drawn⟩ := Option.isSome_iff_exists.mp drawn
  refine ⟨s, n, p, e, parsed, Array.mem_toList_iff.mp member, parent, drawn, ?_, ?_⟩
  · rw [circleRadius, drawnRadius, if_neg (by rw [childPlain]; decide), Layout.real, shared]
  · rw [circleRadius, drawnRadius, if_pos (by rw [parentOwn]; decide), parentOwn]
    norm_num

/-- Not every edge ends on both of the circles that it connects. -/
theorem exists_edge_off_parent : ¬∀ (source : String) (s : Session Rat), parse source = .ok s →
    ∀ n ∈ s.layout.nodes, ∀ p e, s.layout.parentOf? n = some p → s.drawnEdge? n = some e →
      e.childEnd.distance (s.center n) = s.circleRadius n ∧
      e.parentEnd.distance (s.center p) = s.circleRadius p := by
  intro onCircles
  obtain ⟨s, n, p, e, parsed, member, parent, drawn, small, large⟩ := exists_drawnEdge_wideParent
  obtain ⟨apart, shortened⟩ := eq_between_of_drawnEdge? parent drawn
  have claimed := (onCircles wideParent s parsed n member p e parent drawn).2
  rw [shortened, (Segment.distance_between apart _ _).2, small, large] at claimed
  norm_num at claimed

theorem edge_trimmed_by_child_wideParent : ∃ (s : Session Rat) (n p : PlacedNode Rat)
    (e : Segment ℝ), parse wideParent = .ok s ∧ s.layout.parentOf? n = some p ∧
      s.drawnEdge? n = some e ∧ e.childEnd.distance (s.center n) = (9 / 2 : Rat) ∧
      e.parentEnd.distance (s.center p) = (9 / 2 : Rat) ∧ s.circleRadius p = 8 := by
  obtain ⟨s, n, p, e, parsed, -, parent, drawn, small, large⟩ := exists_drawnEdge_wideParent
  obtain ⟨atChild, atParent, -⟩ := edge_trimmed_by_child parsed parent drawn
  exact ⟨s, n, p, e, parsed, parent, drawn, atChild.trans small, atParent.trans small, large⟩

end Session

end TreeDiagram
