import TreeDiagram.Proofs.Layout.Nodes
import TreeDiagram.Proofs.Layout.Rows
import TreeDiagram.Proofs.Tree.Links
/-!
# Where the nodes are placed

The placed nodes are the nodes of an arrangement in root, left, right order. Kept in the shape of
the tree they can be followed by recursion: a node on a level of the shape has the depth of that
level, and the coordinates on a level are those of the row, moved by what the subtrees above are
moved.
-/

namespace TreeDiagram

namespace Layout

/-- The placed nodes of an arrangement in the shape of the tree; `here` is the position of its top
in the list of placed nodes. -/
def placed (labelAt : Nat → String) (v : Rat) :
    Arrangement Rat → Rat → Nat → Option Nat → Nat → Shape (PlacedNode Rat)
  | .empty, _, _, _, _ => .empty
  | .node s l r, shift, depth, parent, here =>
    let total := s.shift + shift
    .node
      { node := s.node, label := labelAt s.node, depth, x := s.x + total, y := v * depth,
        shift := total, parent }
      (placed labelAt v l total (depth + 1) (some here) (here + 1))
      (placed labelAt v r total (depth + 1) (some here) (here + 1 + l.size))

variable {labelAt : Nat → String} {v : Rat}

theorem size_placed (a : Arrangement Rat) (shift : Rat) (depth : Nat) (parent : Option Nat)
    (here : Nat) : (placed labelAt v a shift depth parent here).size = a.size := by
  induction a generalizing shift depth parent here with
  | empty => rfl
  | node s l r ihl ihr => simp only [placed, Shape.size, ihl, ihr]

/-- Placing puts the nodes of the shape behind those placed before. -/
theorem toList_place (a : Arrangement Rat) (shift : Rat) (depth : Nat) (parent : Option Nat)
    (before : Array (PlacedNode Rat)) :
    (place labelAt v a shift depth parent before).toList =
      before.toList ++ (placed labelAt v a shift depth parent before.size).preOrder := by
  induction a generalizing shift depth parent before with
  | empty => simp [place, placed, Shape.preOrder]
  | node s l r ihl ihr =>
    have position : (place labelAt v l (s.shift + shift) (depth + 1) (some before.size)
        (before.push
          { node := s.node, label := labelAt s.node, depth, x := s.x + (s.shift + shift),
            y := v * (depth : Rat), shift := s.shift + shift, parent })).size =
        before.size + 1 + l.size := by
      rw [← Array.length_toList, ihl]
      simp [size_placed]
      omega
    simp only [place, placed, Shape.preOrder]
    rw [ihr, position, ihl]
    simp

theorem map_node_placed (a : Arrangement Rat) (shift : Rat) (depth : Nat) (parent : Option Nat)
    (here : Nat) : (placed labelAt v a shift depth parent here).map PlacedNode.node =
      a.map Spot.node := by
  induction a generalizing shift depth parent here with
  | empty => rfl
  | node s l r ihl ihr => simp only [placed, Shape.map, ihl, ihr]

theorem depth_of_mem_level {a : Arrangement Rat} {shift : Rat} {depth : Nat} {parent : Option Nat}
    {here k : Nat} {n : PlacedNode Rat}
    (member : n ∈ (placed labelAt v a shift depth parent here).level k) : n.depth = depth + k := by
  induction a generalizing shift depth parent here k with
  | empty => simp [placed, Shape.level] at member
  | node s l r ihl ihr =>
    cases k with
    | zero =>
      simp only [placed, Shape.level, List.mem_singleton] at member
      rw [member]
      rfl
    | succ k =>
      simp only [placed, Shape.level, List.mem_append] at member
      rcases member with member | member
      · rw [ihl member]
        omega
      · rw [ihr member]
        omega

/-- The nodes at a depth are a level of the shape. -/
theorem mem_level_iff {a : Arrangement Rat} {shift : Rat} {depth : Nat} {parent : Option Nat}
    {here k : Nat} {n : PlacedNode Rat} :
    n ∈ (placed labelAt v a shift depth parent here).level k ↔
      n ∈ (placed labelAt v a shift depth parent here).preOrder ∧ n.depth = depth + k := by
  rw [Shape.mem_preOrder_iff]
  constructor
  · exact fun member => ⟨⟨k, member⟩, depth_of_mem_level member⟩
  · rintro ⟨⟨j, member⟩, same⟩
    have := depth_of_mem_level member
    rwa [show k = j by omega]

/-- The coordinates on a level are those of the row, moved by the shift from above. -/
theorem map_x_level (a : Arrangement Rat) (shift : Rat) (depth : Nat) (parent : Option Nat)
    (here k : Nat) : ((placed labelAt v a shift depth parent here).level k).map PlacedNode.x =
      (a.row k).map (· + shift) := by
  induction a generalizing shift depth parent here k with
  | empty => cases k <;> rfl
  | node s l r ihl ihr =>
    cases k with
    | zero => simp [placed, Shape.level, Arrangement.row, add_assoc]
    | succ k =>
      simp only [placed, Shape.level, Arrangement.row, List.map_append, ihl, ihr]
      simp [Function.comp_def, add_assoc]

/-- The coordinate of a placed node is found in the row of its level. -/
theorem exists_mem_row {a : Arrangement Rat} {shift : Rat} {depth : Nat} {parent : Option Nat}
    {here k : Nat} {n : PlacedNode Rat}
    (member : n ∈ (placed labelAt v a shift depth parent here).level k) :
    ∃ x ∈ a.row k, n.x = x + shift := by
  have found := List.mem_map_of_mem (f := PlacedNode.x) member
  rw [map_x_level] at found
  obtain ⟨x, hx, same⟩ := List.mem_map.mp found
  exact ⟨x, hx, same.symm⟩

theorem y_of_mem_placed {a : Arrangement Rat} {shift : Rat} {depth : Nat} {parent : Option Nat}
    {here : Nat} {n : PlacedNode Rat}
    (member : n ∈ (placed labelAt v a shift depth parent here).preOrder) : n.y = v * n.depth := by
  induction a generalizing shift depth parent here with
  | empty => simp [placed, Shape.preOrder] at member
  | node s l r ihl ihr =>
    simp only [placed, Shape.preOrder, List.mem_cons, List.mem_append] at member
    rcases member with rfl | member | member
    · rfl
    · exact ihl member
    · exact ihr member

/-- The placed nodes of a layout in the shape of its tree. -/
def picture (t : Tree Rat) (layout : Layout Rat) : Shape (PlacedNode Rat) :=
  placed t.labelAt layout.verticalSpacing
    (Arrangement.ofShape layout.horizontalSpacing t.shape) 0 0 none 0

/-- What a layout consists of. -/
theorem compute_spec {t : Tree Rat} {radius : Rat} {style : Style} {factors : LayoutFactors Rat}
    {layout : Layout Rat} (laid : compute t radius style factors = .ok layout) :
    layout.nodes.toList = (picture t layout).preOrder ∧
      layout.pageWidth = 2 * layout.marginX + (maxX layout.nodes - minX layout.nodes) ∧
      layout.pageHeight = 2 * layout.marginY + maxY layout.nodes ∧
      layout.offsetX = if minX layout.nodes < 0 then -minX layout.nodes else 0 := by
  have made := madeFrom_of_compute laid
  refine ⟨?_, ?_, ?_, ?_⟩
  · rw [made.nodes]
    simp [placeAll, toList_place, picture]
  · rw [made.pageWidth, Scalar.two_literal]
  · rw [made.pageHeight, Scalar.two_literal]
  · rw [made.offsetX, Scalar.zero_literal]

/-- The circles of a layout have an extent. -/
theorem radius_pos_of_compute {t : Tree Rat} {radius : Rat} {style : Style}
    {factors : LayoutFactors Rat} {layout : Layout Rat}
    (laid : compute t radius style factors = .ok layout) : 0 < layout.radius := by
  have made := madeFrom_of_compute laid
  have positive : 0 < radius := Scalar.zero_literal ▸ made.positive
  have increment : (0 : Rat) ≤ style.radiusIncrement := Nat.cast_nonneg _
  rw [made.radius]
  exact add_pos_of_pos_of_nonneg positive increment

/-- A tree with a root has a layout for every positive radius. -/
theorem exists_layout {t : Tree Rat} (rooted : t.root ≠ none) {radius : Rat}
    (positive : 0 < radius) (style : Style) (factors : LayoutFactors Rat) :
    ∃ layout, compute t radius style factors = .ok layout := by
  unfold compute
  rw [if_neg (by simpa using rooted), if_pos ⟨by simpa using positive, rfl⟩]
  exact ⟨_, rfl⟩

theorem mem_nodes_iff {t : Tree Rat} {radius : Rat} {style : Style} {factors : LayoutFactors Rat}
    {layout : Layout Rat} (laid : compute t radius style factors = .ok layout)
    {n : PlacedNode Rat} : n ∈ layout.nodes ↔ n ∈ (picture t layout).preOrder := by
  rw [← (compute_spec laid).1, Array.mem_toList_iff]

theorem map_node_picture (t : Tree Rat) (layout : Layout Rat) :
    (picture t layout).map PlacedNode.node = t.shape := by
  rw [picture, map_node_placed, Arrangement.map_node_ofShape]

end Layout

/-- Two nodes on the third level that would stand at one place: the left one hangs to the right of
its parent and the right one to the left. -/
def Tree.cousins : Tree Rat :=
  { nodes :=
      #[{ Node.new "top" with left := some 1, right := some 3 },
        { Node.new "uncle" with right := some 2, parent := some 0 },
        { Node.new "niece" with parent := some 1 },
        { Node.new "aunt" with left := some 4, parent := some 0 },
        { Node.new "nephew" with parent := some 3 }]
    root := some 0 }

theorem Tree.wellFormed_cousins : Tree.cousins.WellFormed := by
  have spans : Tree.cousins.Spans (some 0)
      (.node 0 (.node 1 .empty (.leaf 2)) (.node 3 (.leaf 4) .empty)) :=
    .node rfl (.node rfl .empty (.node rfl .empty .empty))
      (.node rfl (.node rfl .empty .empty) .empty)
  exact spans.wellFormed (by simp [cousins]) (by decide)

/-- The layout of the two cousins. -/
def Layout.cousins : Layout Rat :=
  let v := 115932667397366053 / 5000000000000000
  { horizontalSpacing := 31 / 2
    verticalSpacing := v
    marginX := 35 / 2
    marginY := 35 / 2
    pageWidth := 97
    pageHeight := 2 * v + 35
    offsetX := 31 / 2
    radius := 11
    nodes :=
      #[⟨0, "top", 0, 31 / 2, 0, 0, none⟩, ⟨1, "uncle", 1, -31 / 2, v, 0, some 0⟩,
        ⟨2, "niece", 2, 0, 2 * v, 0, some 1⟩, ⟨3, "aunt", 1, 93 / 2, v, 31, some 0⟩,
        ⟨4, "nephew", 2, 31, 2 * v, 31, some 3⟩] }

theorem Layout.compute_cousins : compute Tree.cousins 10 {} {} = .ok cousins := by
  decide +kernel

end TreeDiagram
