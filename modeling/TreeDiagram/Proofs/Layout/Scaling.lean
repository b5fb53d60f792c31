import Mathlib.Tactic.FieldSimp
import TreeDiagram.Proofs.Layout.Parents
import TreeDiagram.Proofs.Layout.Translation
/-!
# Layouts of different sizes

An arrangement is made of sums, differences, halves and comparisons of the horizontal spacing, so
that a larger spacing gives the same arrangement on a larger scale. Two layouts of a tree therefore
differ by one factor in each direction, whatever their radius, style and factors are.
-/

namespace TreeDiagram

namespace Scalar

/-- The largest of a row of numbers is scaled with the row. -/
theorem largest?_scaled {c : Rat} (nonneg : 0 ≤ c) (row : List Rat) :
    largest? (row.map (c * ·)) = (largest? row).map (c * ·) := by
  cases row with
  | nil => rfl
  | cons x xs =>
    have step (a b : Rat) : larger (c * a) (c * b) = c * larger a b := by
      rw [larger_eq_max, larger_eq_max, mul_max_of_nonneg _ _ nonneg]
    simp only [largest?, List.map_cons, Option.map_some, List.foldl_map]
    rw [List.foldl_hom (c * ·) step]

theorem smallest?_scaled {c : Rat} (nonneg : 0 ≤ c) (row : List Rat) :
    smallest? (row.map (c * ·)) = (smallest? row).map (c * ·) := by
  cases row with
  | nil => rfl
  | cons x xs =>
    have step (a b : Rat) : smaller (c * a) (c * b) = c * smaller a b := by
      rw [smaller_eq_min, smaller_eq_min, mul_min_of_nonneg _ _ nonneg]
    simp only [smallest?, List.map_cons, Option.map_some, List.foldl_map]
    rw [List.foldl_hom (c * ·) step]

end Scalar

/-- A spot on another scale. -/
def Spot.scaled (c : Rat) (s : Spot Rat) : Spot Rat :=
  { s with x := c * s.x, shift := c * s.shift }

namespace Arrangement

/-- An arrangement on another scale. -/
def scaled (c : Rat) (a : Arrangement Rat) : Arrangement Rat := a.map (Spot.scaled c)

variable {c : Rat}

theorem scaled_node (c : Rat) (s : Spot Rat) (l r : Arrangement Rat) :
    scaled c (.node s l r) = .node (s.scaled c) (l.scaled c) (r.scaled c) :=
  rfl

theorem size_scaled (c : Rat) (a : Arrangement Rat) : (a.scaled c).size = a.size := by
  rw [← Shape.length_preOrder, scaled, Shape.preOrder_map, List.length_map, Shape.length_preOrder]

theorem height_scaled (c : Rat) (a : Arrangement Rat) : (a.scaled c).height = a.height :=
  Shape.height_map _ a

theorem row_scaled (c : Rat) (k : Nat) (a : Arrangement Rat) :
    row k (a.scaled c) = (row k a).map (c * ·) := by
  induction a generalizing k with
  | empty => cases k <;> rfl
  | node s l r ihl ihr =>
    cases k with
    | zero => simp [scaled_node, row, Spot.scaled, mul_add]
    | succ k =>
      rw [scaled_node, row, row, ihl, ihr]
      simp [Spot.scaled, mul_add, Function.comp_def]

theorem moved_scaled (c d : Rat) (a : Arrangement Rat) :
    (a.scaled c).moved (c * d) = (a.moved d).scaled c := by
  cases a with
  | empty => rfl
  | node s l r => simp only [scaled_node, moved, Spot.scaled, mul_add]

theorem separateLevel_scaled (positive : 0 < c) (h : Rat) (left right : Arrangement Rat) (k : Nat) :
    separateLevel (c * h) (left.scaled c) (right.scaled c) k =
      (separateLevel h left right k).scaled c := by
  unfold separateLevel
  rw [row_scaled, row_scaled, Scalar.largest?_scaled positive.le,
    Scalar.smallest?_scaled positive.le]
  cases Scalar.largest? (row k left) with
  | none => rfl
  | some most =>
    cases Scalar.smallest? (row k right) with
    | none => rfl
    | some least =>
      have required : c * most + 2.0 * (c * h) = c * (most + 2.0 * h) := by
        rw [Scalar.two_literal]
        ring
      have lacking (a b : Rat) : c * a - c * b = c * (a - b) := (mul_sub c a b).symm
      simp only [Option.map_some, required, lacking, mul_lt_mul_iff_right₀ positive, moved_scaled]
      split <;> rfl

theorem separate_scaled (positive : 0 < c) (h : Rat) (left right : Arrangement Rat) :
    separate (c * h) (left.scaled c) (right.scaled c) = (separate h left right).scaled c := by
  unfold separate
  rw [height_scaled, height_scaled]
  generalize List.range (min left.height right.height) = levels
  induction levels generalizing right with
  | nil => rfl
  | cons k later ih => rw [List.foldl_cons, List.foldl_cons, separateLevel_scaled positive, ih]

theorem top_scaled (c : Rat) (a : Arrangement Rat) : (a.scaled c).top = c * a.top := by
  cases a with
  | empty => simp [scaled, Shape.map, top]
  | node s l r => simp [scaled_node, top, Spot.scaled, mul_add]

theorem middle_scaled (c : Rat) (left right : Arrangement Rat) :
    middle (left.scaled c) (right.scaled c) = c * middle left right := by
  rw [middle, middle, top_scaled, top_scaled, Scalar.two_literal]
  ring

theorem join_scaled (positive : 0 < c) (h : Rat) (i : Nat) (left right : Arrangement Rat) :
    join (c * h) i (left.scaled c) (right.scaled c) = (join h i left right).scaled c := by
  cases left with
  | empty =>
    cases right with
    | empty => simp [scaled, Shape.map, join, Spot.scaled]
    | node s l r => simp [scaled, Shape.map, join, Spot.scaled, mul_sub]
  | node s l r =>
    cases right with
    | empty => simp [scaled, Shape.map, join, Spot.scaled, mul_add]
    | node s' l' r' =>
      have apart := separate_scaled positive h (.node s l r) (.node s' l' r')
      have spot (x : Rat) : Spot.scaled c ⟨i, x, 0.0⟩ = ⟨i, c * x, 0.0⟩ := by simp [Spot.scaled]
      rw [join_node_node, scaled_node c ⟨i, _, _⟩, spot, ← middle_scaled, ← apart]
      rfl

/-- A larger spacing gives the same arrangement on a larger scale. -/
theorem ofShape_scaled (positive : 0 < c) (h : Rat) (s : Shape Nat) :
    ofShape (c * h) s = (ofShape h s).scaled c := by
  induction s with
  | empty => rfl
  | node i l r ihl ihr => rw [ofShape, ihl, ihr, join_scaled positive, ofShape]

end Arrangement

/-- A placed node at another size, with horizontal places on the scale `c` and levels at the
distance `v`. -/
def PlacedNode.resized (c v : Rat) (n : PlacedNode Rat) : PlacedNode Rat :=
  { n with x := c * n.x, y := v * n.depth, shift := c * n.shift }

namespace Layout

theorem placed_scaled (labelAt : Nat → String) (c v w : Rat) (a : Arrangement Rat) (shift : Rat)
    (depth : Nat) (parent : Option Nat) (here : Nat) :
    placed labelAt w (a.scaled c) (c * shift) depth parent here =
      (placed labelAt v a shift depth parent here).map (PlacedNode.resized c w) := by
  induction a generalizing shift depth parent here with
  | empty => rfl
  | node s l r ihl ihr =>
    have total : c * s.shift + c * shift = c * (s.shift + shift) := (mul_add _ _ _).symm
    have x : c * s.x + c * (s.shift + shift) = c * (s.x + (s.shift + shift)) :=
      (mul_add _ _ _).symm
    simp only [Arrangement.scaled_node, placed, Spot.scaled, total, x, Arrangement.size_scaled, ihl,
      ihr]
    rfl

variable {t : Tree Rat} {radius radius' : Rat} {style style' : Style}
  {factors factors' : LayoutFactors Rat} {layout layout' : Layout Rat}

theorem nodes_resized (laid : compute t radius style factors = .ok layout)
    (laid' : compute t radius' style' factors' = .ok layout') {c : Rat} (positive : 0 < c)
    (spacing : layout'.horizontalSpacing = c * layout.horizontalSpacing) :
    layout'.nodes = layout.nodes.map (PlacedNode.resized c layout'.verticalSpacing) := by
  have scaled := placed_scaled t.labelAt c layout.verticalSpacing layout'.verticalSpacing
    (Arrangement.ofShape layout.horizontalSpacing t.shape) 0 0 none 0
  rw [← Arrangement.ofShape_scaled positive, ← spacing, mul_zero] at scaled
  apply Array.toList_inj.mp
  rw [Array.toList_map, (compute_spec laid).1, (compute_spec laid').1, ← Shape.preOrder_map]
  exact congrArg Shape.preOrder scaled

theorem nodeAt?_resized {c v : Rat}
    (nodes : layout'.nodes = layout.nodes.map (PlacedNode.resized c v)) (i : Nat) :
    layout'.nodeAt? i = (layout.nodeAt? i).map (PlacedNode.resized c v) := by
  rw [nodeAt?, nodeAt?, nodes, Array.find?_map]
  rfl

/-- Two layouts of a well-formed tree differ by the ratio of their horizontal and the ratio of their
vertical spacings: all nodes are placed in the same proportions. -/
theorem size_only_scales (wf : t.WellFormed) (laid : compute t radius style factors = .ok layout)
    (laid' : compute t radius' style' factors' = .ok layout')
    (positive : 0 < layout.horizontalSpacing) (positive' : 0 < layout'.horizontalSpacing) {i : Nat}
    (reachable : t.Reachable i) :
    ∃ n n', layout.nodeAt? i = some n ∧ layout'.nodeAt? i = some n' ∧
      n'.x * layout.horizontalSpacing = n.x * layout'.horizontalSpacing ∧
      n'.y * layout.verticalSpacing = n.y * layout'.verticalSpacing := by
  have ratio : layout'.horizontalSpacing =
      layout'.horizontalSpacing / layout.horizontalSpacing * layout.horizontalSpacing :=
    (div_mul_cancel₀ _ positive.ne').symm
  have nodes := nodes_resized laid laid' (div_pos positive' positive) ratio
  obtain ⟨root, isRoot, path_⟩ := reachable
  obtain ⟨path, leads⟩ := Tree.reaches_iff_follow?.mp path_
  obtain ⟨n, -, found⟩ := exists_nodeAt? wf laid isRoot leads
  have height : n.y = layout.verticalSpacing * n.depth :=
    y_of_mem_placed ((mem_nodes_iff laid).mp (Array.mem_of_find?_eq_some found))
  refine ⟨n, _, found, by rw [nodeAt?_resized nodes, found]; rfl, ?_, ?_⟩
  · simp only [PlacedNode.resized]
    field_simp
  · rw [height]
    simp only [PlacedNode.resized]
    ring

/-- The nephew, who was shifted, with circles four times as large and other factors. -/
theorem size_only_scales_nephew :
    Tree.cousins.WellFormed ∧ compute Tree.cousins 10 {} {} = .ok cousins ∧
      0 < cousins.horizontalSpacing ∧ Tree.cousins.Reachable 4 ∧
      ∃ layout, compute Tree.cousins 40 { edgeXIncrement := 0 } { spacingFactor := 3 } =
          .ok layout ∧
        0 < layout.horizontalSpacing ∧
        ∃ n n', cousins.nodeAt? 4 = some n ∧ layout.nodeAt? 4 = some n' ∧
          n'.x * cousins.horizontalSpacing = n.x * layout.horizontalSpacing ∧
          n'.y * cousins.verticalSpacing = n.y * layout.verticalSpacing := by
  have wf := Tree.wellFormed_cousins
  have positive : 0 < cousins.horizontalSpacing := by decide +kernel
  have reachable : Tree.cousins.Reachable 4 :=
    ⟨0, rfl, .tail (.single ⟨.right, _, rfl, rfl⟩) ⟨.left, _, rfl, rfl⟩⟩
  obtain ⟨layout, laid⟩ := exists_layout (t := Tree.cousins) (Option.some_ne_none 0)
    (show (0 : Rat) < 40 by norm_num) { edgeXIncrement := 0 } { spacingFactor := 3 }
  have positive' : 0 < layout.horizontalSpacing := by
    rw [(madeFrom_of_compute laid).horizontal]
    decide +kernel
  exact ⟨wf, compute_cousins, positive, reachable, layout, laid, positive',
    size_only_scales wf compute_cousins laid positive positive' reachable⟩

end Layout

end TreeDiagram
