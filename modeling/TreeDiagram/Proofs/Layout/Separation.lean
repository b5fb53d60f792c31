import TreeDiagram.Proofs.Layout.Placement
/-!
# Nodes on one level

On every level of a layout the nodes stand in the order of the tree, and two of them are never
closer than twice the horizontal spacing.
-/

namespace TreeDiagram

namespace Layout

/-- Nodes side by side on a level of a separated arrangement keep their distance where they are
placed. -/
theorem clear_of_leftOf {labelAt : Nat → String} {v h : Rat} {a : Arrangement Rat} {shift : Rat}
    {depth : Nat} {parent : Option Nat} {here : Nat} {m n : PlacedNode Rat}
    (separated : a.Separated h)
    (order : (placed labelAt v a shift depth parent here).LeftOf m n)
    (sameDepth : m.depth = n.depth) : m.x + 2 * h ≤ n.x := by
  induction a generalizing shift depth parent here with
  | empty => exact order.elim
  | node s l r ihl ihr =>
    obtain ⟨clear, separatedl, separatedr⟩ := separated
    rcases order with ⟨hm, hn⟩ | order | order
    · obtain ⟨k, hm⟩ := Shape.mem_preOrder_iff.mp hm
      have depthm := depth_of_mem_level hm
      replace hn := mem_level_iff.mpr ⟨hn, sameDepth.symm.trans depthm⟩
      obtain ⟨x, hx, xm⟩ := exists_mem_row hm
      obtain ⟨y, hy, yn⟩ := exists_mem_row hn
      linarith [clear k x hx y hy]
    · exact ihl separatedl order
    · exact ihr separatedr order

/-- Of two nodes of a well-formed tree on one level of its layout, the one to the left in the tree
stands at least twice the horizontal spacing to the left; and of any two nodes on a level one is to
the left of the other, in the tree as in the layout. -/
theorem separation {t : Tree Rat} (wf : t.WellFormed) {radius : Rat} {style : Style}
    {factors : LayoutFactors Rat} {layout : Layout Rat}
    (laid : compute t radius style factors = .ok layout) (positive : 0 < layout.horizontalSpacing) :
    ∀ m ∈ layout.nodes, ∀ n ∈ layout.nodes, m.depth = n.depth →
      (t.LeftOf m.node n.node → 2 * layout.horizontalSpacing ≤ n.x - m.x) ∧
      (m ≠ n → t.LeftOf m.node n.node ∧ m.x < n.x ∨ t.LeftOf n.node m.node ∧ n.x < m.x) := by
  have distinct : ((picture t layout).map PlacedNode.node).preOrder.Nodup := by
    rw [map_node_picture]
    exact wf.nodup_shape
  have inTree {m n : PlacedNode Rat} (order : (picture t layout).LeftOf m n) :
      t.LeftOf m.node n.node := by
    rw [wf.leftOf_iff, ← map_node_picture t layout]
    exact order.map PlacedNode.node
  have apart {m n : PlacedNode Rat} (order : (picture t layout).LeftOf m n)
      (sameDepth : m.depth = n.depth) : m.x + 2 * layout.horizontalSpacing ≤ n.x :=
    clear_of_leftOf (Arrangement.separated_ofShape _ _) order sameDepth
  intro m hm n hn sameDepth
  refine ⟨fun order => ?_, fun different => ?_⟩
  · rw [wf.leftOf_iff, ← map_node_picture t layout] at order
    have inPicture :=
      order.of_map distinct ((mem_nodes_iff laid).mp hm) ((mem_nodes_iff laid).mp hn)
    linarith [apart inPicture sameDepth]
  · have levelm : m ∈ (picture t layout).level m.depth :=
      mem_level_iff.mpr ⟨(mem_nodes_iff laid).mp hm, by simp⟩
    have leveln : n ∈ (picture t layout).level m.depth :=
      mem_level_iff.mpr ⟨(mem_nodes_iff laid).mp hn, by simp [sameDepth]⟩
    rcases Shape.leftOf_or_leftOf levelm leveln different with order | order
    · exact .inl ⟨inTree order, by linarith [apart order sameDepth]⟩
    · exact .inr ⟨inTree order, by linarith [apart order sameDepth.symm]⟩

/-- Two cousins that would meet are moved apart. -/
theorem separation_cousins :
    Tree.cousins.WellFormed ∧ compute Tree.cousins 10 {} {} = .ok cousins ∧
      0 < cousins.horizontalSpacing ∧
      ∃ m ∈ cousins.nodes, ∃ n ∈ cousins.nodes, m.depth = n.depth ∧
        Tree.cousins.LeftOf m.node n.node ∧ 2 * cousins.horizontalSpacing ≤ n.x - m.x := by
  have leftOf : Tree.cousins.LeftOf 2 4 :=
    ⟨0, 1, 3, ⟨0, rfl, .refl⟩, ⟨_, rfl, rfl⟩, ⟨_, rfl, rfl⟩, .single ⟨.right, _, rfl, rfl⟩,
      .single ⟨.left, _, rfl, rfl⟩⟩
  have positive : 0 < cousins.horizontalSpacing := by decide +kernel
  have niece : cousins.nodes[2] ∈ cousins.nodes := Array.getElem_mem _
  have nephew : cousins.nodes[4] ∈ cousins.nodes := Array.getElem_mem _
  refine ⟨Tree.wellFormed_cousins, compute_cousins, positive, _, niece, _, nephew, rfl, leftOf, ?_⟩
  exact (separation Tree.wellFormed_cousins compute_cousins positive _ niece _ nephew rfl).1 leftOf

end Layout

end TreeDiagram
