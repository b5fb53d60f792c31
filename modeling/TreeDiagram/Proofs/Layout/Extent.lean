import TreeDiagram.Proofs.Layout.Placement
/-!
# The page fits the tree

The extent of a tree is measured with zero in it. This adds nothing: going left from the root, or
right where there is no left child, leads to a leaf that no move reaches, so that a node stands at
zero, and the root stands at height zero.
-/

namespace TreeDiagram

namespace Layout

/-- The horizontal places of the nodes. -/
def xs (layout : Layout Rat) : Set Rat := {x | ∃ n ∈ layout.nodes, n.x = x}

/-- The vertical places of the nodes. -/
def ys (layout : Layout Rat) : Set Rat := {y | ∃ n ∈ layout.nodes, n.y = y}

theorem isLeast_minX (layout : Layout Rat) : IsLeast (insert 0 layout.xs) (minX layout.nodes) := by
  have least := Scalar.isLeast_foldl_smaller PlacedNode.x layout.nodes.toList 0
  simpa [minX, xs, Array.foldl_toList] using least

theorem isGreatest_maxX (layout : Layout Rat) :
    IsGreatest (insert 0 layout.xs) (maxX layout.nodes) := by
  have greatest := Scalar.isGreatest_foldl_larger PlacedNode.x layout.nodes.toList 0
  simpa [maxX, xs, Array.foldl_toList] using greatest

theorem isGreatest_maxY (layout : Layout Rat) :
    IsGreatest (insert 0 layout.ys) (maxY layout.nodes) := by
  have greatest := Scalar.isGreatest_foldl_larger PlacedNode.y layout.nodes.toList 0
  simpa [maxY, ys, Array.foldl_toList] using greatest

/-- The leaf that is reached by going left, or right where nothing is on the left, stays at zero. -/
theorem exists_at_zero {labelAt : Nat → String} {v h : Rat} {s : Shape Nat} (notEmpty : s ≠ .empty)
    (depth : Nat) (parent : Option Nat) (here : Nat) :
    ∃ n ∈ (placed labelAt v (Arrangement.ofShape h s) 0 depth parent here).preOrder, n.x = 0 := by
  induction s generalizing depth parent here with
  | empty => exact absurd rfl notEmpty
  | node i l r ihl ihr =>
    obtain ⟨x, d, least, leaf, joined⟩ :=
      Arrangement.join_spec h i (Arrangement.ofShape h l) (Arrangement.ofShape h r)
    rw [Arrangement.ofShape, joined]
    simp only [placed, Shape.preOrder, List.mem_cons, List.mem_append, add_zero]
    by_cases goLeft : l = .empty
    · subst goLeft
      -- nothing is on the left, so the right subtree is not moved
      have still : d = 0 := by
        refine le_antisymm (least.2 ⟨le_refl 0, ?_⟩) least.1.1
        exact Arrangement.clear_empty_left h _
      rw [still, Arrangement.moved_zero]
      by_cases goRight : r = .empty
      · subst goRight
        exact ⟨_, .inl rfl, by simpa using leaf rfl rfl⟩
      · obtain ⟨n, member, zero⟩ := ihr goRight (depth + 1) (some here) (here + 1 + 0)
        exact ⟨n, .inr (.inr member), zero⟩
    · obtain ⟨n, member, zero⟩ := ihl goLeft (depth + 1) (some here) (here + 1)
      exact ⟨n, .inr (.inl member), zero⟩

/-- The root is placed at depth zero. -/
theorem exists_at_top {labelAt : Nat → String} {v : Rat} {a : Arrangement Rat}
    (notEmpty : a ≠ .empty) (shift : Rat) (depth : Nat) (parent : Option Nat) (here : Nat) :
    ∃ n ∈ (placed labelAt v a shift depth parent here).preOrder, n.depth = depth := by
  cases a with
  | empty => exact absurd rfl notEmpty
  | node s l r =>
    simp only [placed, Shape.preOrder]
    exact ⟨_, List.mem_cons_self, rfl⟩

/-- In the layout of a well-formed tree zero is among the places of the nodes, in both directions,
and no node is above it. -/
theorem zero_placed {t : Tree Rat} (wf : t.WellFormed) {radius : Rat} {style : Style}
    {factors : LayoutFactors Rat} {layout : Layout Rat}
    (laid : compute t radius style factors = .ok layout) (nonneg : 0 ≤ layout.verticalSpacing) :
    0 ∈ layout.xs ∧ IsLeast layout.ys 0 := by
  refine ⟨?_, ?_, ?_⟩
  · obtain ⟨n, found, zero⟩ := exists_at_zero wf.shape_ne_empty 0 none 0
    exact ⟨n, (mem_nodes_iff laid).mpr found, zero⟩
  · have notEmpty : Arrangement.ofShape layout.horizontalSpacing t.shape ≠ .empty := by
      intro nothing
      have shape := Arrangement.map_node_ofShape layout.horizontalSpacing t.shape
      rw [nothing] at shape
      exact wf.shape_ne_empty shape.symm
    obtain ⟨n, found, top⟩ := exists_at_top notEmpty 0 0 none 0
    refine ⟨n, (mem_nodes_iff laid).mpr found, ?_⟩
    rw [y_of_mem_placed found, top]
    simp
  · rintro y ⟨n, found, rfl⟩
    rw [y_of_mem_placed ((mem_nodes_iff laid).mp found)]
    exact mul_nonneg nonneg (Nat.cast_nonneg _)

/-- The page is exactly as large as the tree and its margins: its width is that of the tree, its
height is that of the lowest node, and on each of its four margins there stands a node. -/
theorem page_extent {t : Tree Rat} (wf : t.WellFormed) {radius : Rat} {style : Style}
    {factors : LayoutFactors Rat} {layout : Layout Rat}
    (laid : compute t radius style factors = .ok layout) (nonneg : 0 ≤ layout.verticalSpacing) :
    ∃ left right bottom,
      IsLeast layout.xs left ∧ IsGreatest layout.xs right ∧ IsGreatest layout.ys bottom ∧
      layout.pageWidth - 2 * layout.marginX = right - left ∧
      layout.offsetX = -left ∧
      layout.pageHeight - 2 * layout.marginY = bottom ∧
      IsLeast (layout.absoluteX '' layout.xs) layout.marginX ∧
      IsGreatest (layout.absoluteX '' layout.xs) (layout.pageWidth - layout.marginX) ∧
      IsLeast (layout.absoluteY '' layout.ys) layout.marginY ∧
      IsGreatest (layout.absoluteY '' layout.ys) (layout.pageHeight - layout.marginY) := by
  obtain ⟨zeroX, leastY⟩ := zero_placed wf laid nonneg
  obtain ⟨-, width, height, offset⟩ := compute_spec laid
  have leastX := isLeast_minX layout
  have greatestX := isGreatest_maxX layout
  have greatestY := isGreatest_maxY layout
  rw [Set.insert_eq_of_mem zeroX] at leastX greatestX
  rw [Set.insert_eq_of_mem leastY.1] at greatestY
  have offset' : layout.offsetX = -minX layout.nodes := by
    have atMost : minX layout.nodes ≤ 0 := leastX.2 zeroX
    rw [offset]
    split
    · rfl
    · next notLess => linarith
  have monoX : Monotone layout.absoluteX := fun a b le => by unfold absoluteX; linarith
  have monoY : Monotone layout.absoluteY := fun a b le => by unfold absoluteY; linarith
  refine ⟨_, _, _, leastX, greatestX, greatestY, by linarith, offset', by linarith, ?_, ?_, ?_, ?_⟩
  · have := monoX.map_isLeast leastX
    rwa [show layout.absoluteX (minX layout.nodes) = layout.marginX by
      unfold absoluteX; linarith] at this
  · have := monoX.map_isGreatest greatestX
    rwa [show layout.absoluteX (maxX layout.nodes) = layout.pageWidth - layout.marginX by
      unfold absoluteX; linarith] at this
  · have := monoY.map_isLeast leastY
    rwa [show layout.absoluteY 0 = layout.marginY by unfold absoluteY; linarith] at this
  · have := monoY.map_isGreatest greatestY
    rwa [show layout.absoluteY (maxY layout.nodes) = layout.pageHeight - layout.marginY by
      unfold absoluteY; linarith] at this

/-- The page of a tree with a node to the left of its root. -/
theorem page_extent_cousins :
    Tree.cousins.WellFormed ∧ compute Tree.cousins 10 {} {} = .ok cousins ∧
      0 ≤ cousins.verticalSpacing ∧
      ∃ left right, IsLeast cousins.xs left ∧ IsGreatest cousins.xs right ∧
        cousins.pageWidth - 2 * cousins.marginX = right - left ∧ cousins.offsetX = -left := by
  have nonneg : 0 ≤ cousins.verticalSpacing := by decide +kernel
  obtain ⟨left, right, _, least, greatest, _, width, offset, _⟩ :=
    page_extent Tree.wellFormed_cousins compute_cousins nonneg
  exact ⟨Tree.wellFormed_cousins, compute_cousins, nonneg, left, right, least, greatest, width,
    offset⟩

end Layout

end TreeDiagram
