import Mathlib.Algebra.Order.Ring.Abs
import Mathlib.Tactic.Ring
import TreeDiagram.Proofs.Document
import TreeDiagram.Proofs.Layout.Family
import TreeDiagram.Proofs.Layout.Separation
/-!
# Circles that overlap

With the default measures circles on one level are clear of each other, and so are those with a
level between them and those of a parent and its child. Circles on neighbouring levels in different
branches are clear as long as no label has more than four bytes: from five bytes on the diameter
exceeds the distance of two levels, and nothing keeps the branches apart there.
-/

namespace TreeDiagram

/-- A style that adds as much to radii and to edges as it does by default. -/
structure Style.PlainIncrements (style : Style) : Prop where
  radius : style.radiusIncrement = ({} : Style).radiusIncrement
  edgeX : style.edgeXIncrement = ({} : Style).edgeXIncrement
  edgeY : style.edgeYIncrement = ({} : Style).edgeYIncrement

namespace Layout

/-- The circles of two nodes have points in common: their centres are closer than two radii. -/
def Overlap (layout : Layout Rat) (m n : PlacedNode Rat) : Prop :=
  (n.x - m.x) ^ 2 + (n.y - m.y) ^ 2 < (2 * layout.radius) ^ 2

instance (layout : Layout Rat) (m n : PlacedNode Rat) : Decidable (layout.Overlap m n) :=
  inferInstanceAs (Decidable (_ < _))

/-- Two nodes on levels that follow each other. -/
def Adjacent (m n : PlacedNode Rat) : Prop :=
  m.depth + 1 = n.depth ∨ n.depth + 1 = m.depth

/-- A layout with the default factors and increments for circles that fit a label of radius
`fit`. -/
structure Plain (layout : Layout Rat) (fit : Rat) : Prop where
  positive : 0 < fit
  horizontal : layout.horizontalSpacing = 0.5 * 2.1 * fit + 5
  vertical : layout.verticalSpacing = 0.8660254037844386 * 2.1 * fit + 5
  radius : layout.radius = fit + 1

theorem plain_of_increments {t : Tree Rat} {fit : Rat} {style : Style} {layout : Layout Rat}
    (increments : style.PlainIncrements) (laid : compute t fit style {} = .ok layout) :
    layout.Plain fit := by
  have made := madeFrom_of_compute laid
  constructor
  · exact Scalar.zero_literal ▸ made.positive
  · rw [made.horizontal]
    simp only [LayoutFactors.spacing, LayoutFactors.sinThirty, increments.edgeX]
    norm_num
    ring
  · rw [made.vertical]
    simp only [LayoutFactors.spacing, LayoutFactors.sinSixty, increments.edgeY]
    norm_num
    ring
  · rw [made.radius, increments.radius]
    norm_num

theorem plain_of_compute {t : Tree Rat} {fit : Rat} {layout : Layout Rat}
    (laid : compute t fit {} {} = .ok layout) : layout.Plain fit :=
  plain_of_increments ⟨rfl, rfl, rfl⟩ laid

namespace Plain

variable {layout : Layout Rat} {fit : Rat} (plain : layout.Plain fit)

include plain

theorem radius_le_horizontal : 2 * layout.radius ≤ 2 * layout.horizontalSpacing := by
  rw [plain.radius, plain.horizontal]
  linarith [plain.positive]

theorem radius_le_vertical : layout.radius ≤ layout.verticalSpacing := by
  rw [plain.radius, plain.vertical]
  linarith [plain.positive]

theorem radius_nonneg : 0 ≤ layout.radius := by
  rw [plain.radius]
  linarith [plain.positive]

/-- A step to the side and one level down lead out of a circle. -/
theorem radius_lt_edge :
    (2 * layout.radius) ^ 2 < layout.horizontalSpacing ^ 2 + layout.verticalSpacing ^ 2 := by
  rw [plain.radius, plain.horizontal, plain.vertical]
  nlinarith [plain.positive, sq_nonneg fit]

/-- The diameter fits between two levels as long as the circles are small. -/
theorem radius_le_level (small : fit ≤ 14) : 2 * layout.radius ≤ layout.verticalSpacing := by
  rw [plain.radius, plain.vertical]
  linarith

end Plain

/-- Two centres at least a diameter apart in one direction. -/
theorem not_overlap_of_le {layout : Layout Rat} {m n : PlacedNode Rat} (nonneg : 0 ≤ layout.radius)
    (apart : 2 * layout.radius ≤ |n.x - m.x| ∨ 2 * layout.radius ≤ |n.y - m.y|) :
    ¬layout.Overlap m n := by
  have diameter : 0 ≤ 2 * layout.radius := by linarith
  rw [Overlap, not_lt]
  rcases apart with side | level
  · have square := pow_le_pow_left₀ diameter side 2
    rw [sq_abs] at square
    linarith [sq_nonneg (n.y - m.y)]
  · have square := pow_le_pow_left₀ diameter level 2
    rw [sq_abs] at square
    linarith [sq_nonneg (n.x - m.x)]

section Placed

variable {t : Tree Rat} {fit : Rat} {layout : Layout Rat} {m n : PlacedNode Rat}

theorem y_eq (laid : compute t fit {} {} = .ok layout) (member : n ∈ layout.nodes) :
    n.y = layout.verticalSpacing * n.depth :=
  y_of_mem_placed ((mem_nodes_iff laid).mp member)

/-- Two nodes on one level are apart by twice the horizontal spacing. -/
theorem le_abs_sub_of_depth (laid : compute t fit {} {} = .ok layout) (hm : m ∈ layout.nodes)
    (hn : n ∈ layout.nodes) (different : m ≠ n) (sameDepth : m.depth = n.depth) :
    2 * layout.horizontalSpacing ≤ |n.x - m.x| := by
  have levelm : m ∈ (picture t layout).level m.depth :=
    mem_level_iff.mpr ⟨(mem_nodes_iff laid).mp hm, by simp⟩
  have leveln : n ∈ (picture t layout).level m.depth :=
    mem_level_iff.mpr ⟨(mem_nodes_iff laid).mp hn, by simp [sameDepth]⟩
  have separated := Arrangement.separated_ofShape layout.horizontalSpacing t.shape
  rcases Shape.leftOf_or_leftOf levelm leveln different with order | order
  · have apart := clear_of_leftOf separated order sameDepth
    apply le_trans _ (le_abs_self _)
    linarith
  · have apart := clear_of_leftOf separated order sameDepth.symm
    apply le_trans _ (neg_le_abs _)
    linarith

/-- Two nodes are as far below each other as there are levels between them. -/
theorem abs_sub_y (laid : compute t fit {} {} = .ok layout) (hm : m ∈ layout.nodes)
    (hn : n ∈ layout.nodes) :
    |n.y - m.y| = layout.verticalSpacing * |(n.depth : Rat) - m.depth| := by
  have plain := plain_of_compute laid
  have vertical : 0 ≤ layout.verticalSpacing :=
    le_trans plain.radius_nonneg plain.radius_le_vertical
  rw [y_eq laid hm, y_eq laid hn, ← mul_sub, abs_mul, abs_of_nonneg vertical]

theorem sq_sub_y_of_adjacent (laid : compute t fit {} {} = .ok layout) (hm : m ∈ layout.nodes)
    (hn : n ∈ layout.nodes) (adjacent : Adjacent m n) :
    (n.y - m.y) ^ 2 = layout.verticalSpacing ^ 2 := by
  have step : |(n.depth : Rat) - m.depth| = 1 := by
    rcases adjacent with below | above
    · rw [← below, Nat.cast_add, Nat.cast_one, add_sub_cancel_left, abs_one]
    · rw [← above, Nat.cast_add, Nat.cast_one, sub_add_cancel_left, abs_neg, abs_one]
  rw [← sq_abs, abs_sub_y laid hm hn, step, mul_one]

/-- Circles overlap only on neighbouring levels, and there where their horizontal distance does not
make up for what two levels lack of a diameter. -/
theorem overlap_iff (laid : compute t fit {} {} = .ok layout) (hm : m ∈ layout.nodes)
    (hn : n ∈ layout.nodes) (different : m ≠ n) : layout.Overlap m n ↔ Adjacent m n ∧
      (n.x - m.x) ^ 2 < (2 * layout.radius) ^ 2 - layout.verticalSpacing ^ 2 := by
  have plain := plain_of_compute laid
  have nonneg := plain.radius_nonneg
  by_cases adjacent : Adjacent m n
  · rw [Overlap, sq_sub_y_of_adjacent laid hm hn adjacent, lt_sub_iff_add_lt]
    exact ⟨fun overlap => ⟨adjacent, overlap⟩, And.right⟩
  · have apart : ¬layout.Overlap m n := by
      apply not_overlap_of_le nonneg
      by_cases sameDepth : m.depth = n.depth
      · left
        exact le_trans plain.radius_le_horizontal
          (le_abs_sub_of_depth laid hm hn different sameDepth)
      · -- there is a level between the two, and one level is already as high as a radius
        right
        have levels : (2 : Rat) ≤ |(n.depth : Rat) - m.depth| := by
          unfold Adjacent at adjacent
          have twice : m.depth + 2 ≤ n.depth ∨ n.depth + 2 ≤ m.depth := by omega
          rcases twice with below | above
          · have cast : (m.depth : Rat) + 2 ≤ n.depth := by exact_mod_cast below
            apply le_trans _ (le_abs_self _)
            linarith
          · have cast : (n.depth : Rat) + 2 ≤ m.depth := by exact_mod_cast above
            apply le_trans _ (neg_le_abs _)
            linarith
        calc 2 * layout.radius
            ≤ |(n.depth : Rat) - m.depth| * layout.verticalSpacing :=
              mul_le_mul levels plain.radius_le_vertical nonneg (abs_nonneg _)
          _ = |n.y - m.y| := by rw [abs_sub_y laid hm hn, mul_comm]
    exact ⟨fun overlap => absurd overlap apart, fun near => absurd near.1 adjacent⟩

theorem not_overlap_parent (laid : compute t fit {} {} = .ok layout) (hm : m ∈ layout.nodes)
    (hn : n ∈ layout.nodes) (parent : layout.parentOf? n = some m) : ¬layout.Overlap m n := by
  have plain := plain_of_compute laid
  obtain ⟨below, side⟩ := step_of_parentOf laid hn parent
  have horizontal : 0 ≤ layout.horizontalSpacing := by
    linarith [plain.radius_nonneg, plain.radius_le_horizontal]
  have square := pow_le_pow_left₀ horizontal side 2
  rw [sq_abs] at square
  rw [Overlap, not_lt, sq_sub_y_of_adjacent laid hm hn (.inl below.symm)]
  linarith [plain.radius_lt_edge]

theorem not_overlap_of_small (laid : compute t fit {} {} = .ok layout) (hm : m ∈ layout.nodes)
    (hn : n ∈ layout.nodes) (different : m ≠ n) (small : fit ≤ 14) : ¬layout.Overlap m n := by
  have plain := plain_of_compute laid
  intro overlap
  obtain ⟨-, near⟩ := (overlap_iff laid hm hn different).mp overlap
  have diameter : 0 ≤ 2 * layout.radius := by linarith [plain.radius_nonneg]
  have square := pow_le_pow_left₀ diameter (plain.radius_le_level small) 2
  linarith [sq_nonneg (n.x - m.x)]

end Placed

end Layout

namespace Session

open Layout

/-- A label of four bytes or fewer fits a circle of radius fourteen. -/
theorem bestRadius_le {length : Nat} (short : length ≤ 4) :
    ({} : LayoutFactors Rat).bestRadius length {} ≤ 14 := by
  have cast : (length : Rat) ≤ 4 := by exact_mod_cast short
  rw [LayoutFactors.bestRadius, Scalar.larger_eq_max]
  apply max_le
  · simp only [LayoutFactors.glyphWidth]
    norm_num
    linarith
  · norm_num

/-- A start line alone leaves all measures at their defaults. -/
theorem compute_of_parse {source : String} {s : Session Rat}
    (single : (significantLines source.toList).length = 1) (parsed : parse source = .ok s) :
    compute s.document.description.tree
      (({} : LayoutFactors Rat).bestRadius s.document.description.longestLabel {}) {} {} =
        .ok s.layout := by
  obtain ⟨read, laidOut⟩ := parse_eq_ok parsed
  obtain ⟨first, later, description, lines, done⟩ := Document.read_eq_ok read
  have none_ : later = [] := by
    rw [lines, List.length_cons, Nat.add_eq_right] at single
    exact List.eq_nil_of_length_eq_zero single
  subst none_
  have start : s.document = { description, styling := initialStyling {} maxNodeId } :=
    (Except.ok.inj done).symm
  have defaults : s.document.styling.cascade.overrides = {} := by
    rw [start]
    rfl
  have laid := compute_of_ofDocument laidOut
  rw [defaults] at laid
  exact laid

/-- Two circles of an input without property lines overlap only if they are on neighbouring levels,
some label has at least five bytes, and the horizontal distance is too small; those of a parent and
its child never do. -/
theorem overlap_only_between_neighbours {source : String} {s : Session Rat}
    (single : (significantLines source.toList).length = 1) (parsed : parse source = .ok s)
    {m n : PlacedNode Rat} (hm : m ∈ s.layout.nodes) (hn : n ∈ s.layout.nodes)
    (different : m ≠ n) :
    (s.layout.Overlap m n ↔ 5 ≤ s.document.description.longestLabel ∧ Adjacent m n ∧
      (n.x - m.x) ^ 2 < (2 * s.layout.radius) ^ 2 - s.layout.verticalSpacing ^ 2) ∧
    (s.layout.parentOf? n = some m → ¬s.layout.Overlap m n) := by
  have laid := compute_of_parse single parsed
  refine ⟨⟨fun overlap => ?_, fun near => ?_⟩, not_overlap_parent laid hm hn⟩
  · refine ⟨?_, (overlap_iff laid hm hn different).mp overlap⟩
    by_contra short
    have small := bestRadius_le (Nat.le_of_lt_succ (Nat.lt_of_not_le short))
    exact not_overlap_of_small laid hm hn different small overlap
  · exact (overlap_iff laid hm hn different).mpr near.2

/-- An input whose second subtree is so wide on its deeper levels that its first leaf comes to stand
right below the first subtree, which is a leaf as well. -/
def greenhouse : String :=
  "bitree = Greenhouse(L,S(T,U(V(W(X(A,B),C),D),E)))"

theorem exists_parse_greenhouse : ∃ s : Session Rat, parse greenhouse = .ok s ∧
    ∃ m ∈ s.layout.nodes.toList, ∃ n ∈ s.layout.nodes.toList, m ≠ n ∧ s.layout.Overlap m n := by
  let tree : TreeDescription.Derivation :=
    .branch "Greenhouse" (.leaf "L") (.branch "S" (.leaf "T")
      (.branch "U" (.branch "V" (.branch "W" (.branch "X" (.leaf "A") (.leaf "B")) (.leaf "C"))
        (.leaf "D")) (.leaf "E")))
  have lines : significantLines greenhouse.toList = [⟨0, greenhouse.toList⟩] := by decide +kernel
  have marked : afterStartMarker? greenhouse.toList =
      some " Greenhouse(L,S(T,U(V(W(X(A,B),C),D),E)))".toList := by decide +kernel
  have words : (lex " Greenhouse(L,S(T,U(V(W(X(A,B),C),D),E)))".toList).toOption.map
      (List.map Lexeme.token) = some tree.words := by decide +kernel
  exact exists_parse_of_lines {} {} lines marked words (by decide +kernel)

/-- Not all circles of an input without property lines are clear of each other. -/
theorem exists_overlap : ¬∀ (source : String) (s : Session Rat),
    (significantLines source.toList).length = 1 → parse source = .ok s →
      ∀ m ∈ s.layout.nodes, ∀ n ∈ s.layout.nodes, m ≠ n →
        (2 * s.layout.radius) ^ 2 ≤ (n.x - m.x) ^ 2 + (n.y - m.y) ^ 2 := by
  intro clear
  obtain ⟨s, parsed, m, hm, n, hn, different, overlap⟩ := exists_parse_greenhouse
  have single : (significantLines greenhouse.toList).length = 1 := by decide +kernel
  have apart := clear greenhouse s single parsed m (Array.mem_toList_iff.mp hm) n
    (Array.mem_toList_iff.mp hn) different
  exact absurd overlap (not_lt.mpr apart)

theorem overlap_only_between_neighbours_greenhouse : ∃ s : Session Rat,
    (significantLines greenhouse.toList).length = 1 ∧ parse greenhouse = .ok s ∧
      ∃ m ∈ s.layout.nodes, ∃ n ∈ s.layout.nodes, m ≠ n ∧
        5 ≤ s.document.description.longestLabel ∧ Adjacent m n ∧ s.layout.parentOf? n ≠ some m := by
  obtain ⟨s, parsed, m, hm, n, hn, different, overlap⟩ := exists_parse_greenhouse
  have single : (significantLines greenhouse.toList).length = 1 := by decide +kernel
  rw [Array.mem_toList_iff] at hm hn
  have result := overlap_only_between_neighbours single parsed hm hn different
  obtain ⟨long, adjacent, -⟩ := result.1.mp overlap
  exact ⟨s, single, parsed, m, hm, n, hn, different, long, adjacent,
    fun parent => result.2 parent overlap⟩

end Session

end TreeDiagram
