import TreeDiagram.Proofs.Description.Acceptance
import TreeDiagram.Proofs.Layout.Extent
import TreeDiagram.Proofs.Layout.Parents
import TreeDiagram.Proofs.Layout.Upward
/-!
# The left edge of a tree

A described tree has no child or two at every node. Its parents then stand in the middle over their
children, its right subtrees move to the right only, and its left ones do not move. So nothing comes
to stand to the left of zero, where the leaf at the end of the leftmost path stays.
-/

namespace TreeDiagram

namespace Shape

variable {α : Type}

/-- Every item has no child or two. -/
def Full : Shape α → Prop
  | .empty => True
  | .node _ l r => (l = .empty ↔ r = .empty) ∧ l.Full ∧ r.Full

/-- The path that goes left a number of times. -/
abbrev lefts (k : Nat) : List Side := List.replicate k .left

theorem Full.exists_leftmost {s : Shape α} (full : s.Full) (some : s ≠ .empty) :
    ∃ k a, s.subtree (lefts k) = .leaf a := by
  induction s with
  | empty => exact absurd rfl some
  | node a l r ihl ihr =>
    obtain ⟨both, fulll, -⟩ := full
    by_cases alone : l = .empty
    · obtain rfl := both.mp alone
      subst alone
      exact ⟨0, a, rfl⟩
    · obtain ⟨k, leaf, leads⟩ := ihl fulll alone
      exact ⟨k + 1, leaf, leads⟩

end Shape

theorem TreeDescription.Derivation.places_ne_empty (d : Derivation) (first : Nat) :
    d.places first ≠ .empty := by
  cases d <;> simp [places, Shape.leaf]

theorem TreeDescription.Derivation.full_places (d : Derivation) (first : Nat) :
    (d.places first).Full := by
  induction d generalizing first with
  | leaf label => exact ⟨Iff.rfl, trivial, trivial⟩
  | branch label l r ihl ihr =>
    exact ⟨iff_of_false (l.places_ne_empty _) (r.places_ne_empty _), ihl _, ihr _⟩

namespace Arrangement

theorem ofShape_eq_empty_iff {h : Rat} {s : Shape Nat} : ofShape h s = .empty ↔ s = .empty := by
  constructor
  · intro nothing
    have shape := map_node_ofShape h s
    rw [nothing] at shape
    exact shape.symm
  · rintro rfl
    rfl

theorem top_mem_row {a : Arrangement Rat} (some : a ≠ .empty) : a.top ∈ row 0 a := by
  cases a with
  | empty => exact absurd rfl some
  | node s l r => exact List.mem_singleton.mpr rfl

/-- A parent of two stands in the middle over its children, none of which it moves to the left. -/
theorem exists_join_of_nonneg {a b : Arrangement Rat} (both : a = .empty ↔ b = .empty)
    (left : 0 ≤ a.top) (right : 0 ≤ b.top) (h : Rat) (i : Nat) :
    ∃ x d, 0 ≤ x ∧ 0 ≤ d ∧ join h i a b = .node ⟨i, x, 0⟩ a (b.moved d) := by
  cases a with
  | empty =>
    obtain rfl := both.mp rfl
    exact ⟨0, 0, le_refl 0, le_refl 0, by simp [join, moved]⟩
  | node s l r =>
    cases b with
    | empty => exact absurd (both.mpr rfl) (by simp)
    | node s' l' r' =>
      obtain ⟨d, ⟨⟨nonneg, -⟩, -⟩, apart⟩ := separate_least h (.node s l r) (.node s' l' r')
      have moves : (moved d (.node s' l' r')).top = Arrangement.top (.node s' l' r') + d :=
        (add_assoc _ _ _).symm
      refine ⟨middle (.node s l r) (moved d (.node s' l' r')), d, ?_, nonneg, ?_⟩
      · rw [middle, moves, Scalar.two_literal]
        linarith
      · rw [join_node_node, apart, Scalar.zero_literal]

/-- Nothing in the arrangement of a full tree is to the left of zero. -/
theorem row_nonneg {s : Shape Nat} (full : s.Full) (h : Rat) (k : Nat) :
    ∀ x ∈ row k (ofShape h s), 0 ≤ x := by
  induction s generalizing k with
  | empty => simp [ofShape, row]
  | node i l r ihl ihr =>
    obtain ⟨both, fulll, fullr⟩ := full
    have top {a : Arrangement Rat} (rows : ∀ k, ∀ x ∈ row k a, 0 ≤ x) : 0 ≤ a.top := by
      by_cases none : a = .empty
      · subst none
        exact Scalar.zero_literal.ge
      · exact rows 0 _ (top_mem_row none)
    have empty : ofShape h l = .empty ↔ ofShape h r = .empty := by
      rw [ofShape_eq_empty_iff, ofShape_eq_empty_iff, both]
    obtain ⟨x, d, here, moves, joined⟩ := exists_join_of_nonneg empty (top fun k => ihl fulll k)
      (top fun k => ihr fullr k) h i
    rw [ofShape, joined]
    intro y member
    cases k with
    | zero =>
      rw [row, List.mem_singleton] at member
      rw [member, add_zero]
      exact here
    | succ k =>
      simp only [row, add_zero, List.map_id', List.mem_append] at member
      rcases member with left | right
      · exact ihl fulll k y left
      · obtain ⟨z, inRight, rfl⟩ := mem_row_moved.mp right
        exact add_nonneg (ihr fullr k z inRight) moves

end Arrangement

namespace Layout

/-- On the left of an unshifted node nothing is shifted. -/
theorem branch_left_placed (labelAt : Nat → String) (v h : Rat) (s : Shape Nat) (depth : Nat)
    (parent : Option Nat) (here : Nat) : ∃ parent' here',
      (placed labelAt v (Arrangement.ofShape h s) 0 depth parent here).branch .left =
        placed labelAt v (Arrangement.ofShape h (s.branch .left)) 0 (depth + 1) parent' here' := by
  cases s with
  | empty => exact ⟨parent, here, rfl⟩
  | node i l r =>
    obtain ⟨x, d, -, -, joined⟩ :=
      Arrangement.join_spec h i (Arrangement.ofShape h l) (Arrangement.ofShape h r)
    refine ⟨some here, here + 1, ?_⟩
    rw [Arrangement.ofShape, joined]
    simp only [placed, Shape.branch, add_zero]

/-- Down the leftmost path nothing is shifted. -/
theorem subtree_placed_lefts (labelAt : Nat → String) (v h : Rat) (s : Shape Nat) (depth : Nat)
    (parent : Option Nat) (here k : Nat) : ∃ parent' here',
      (placed labelAt v (Arrangement.ofShape h s) 0 depth parent here).subtree (Shape.lefts k) =
        placed labelAt v (Arrangement.ofShape h (s.subtree (Shape.lefts k))) 0 (depth + k) parent'
          here' := by
  induction k generalizing s depth parent here with
  | zero => exact ⟨parent, here, rfl⟩
  | succ k ih =>
    obtain ⟨parent', here', first⟩ := branch_left_placed labelAt v h s depth parent here
    obtain ⟨parent'', here'', rest⟩ := ih (s.branch .left) (depth + 1) parent' here'
    refine ⟨parent'', here'', ?_⟩
    rw [Shape.lefts, List.replicate_succ, Shape.subtree_cons, Shape.subtree_cons, first, rest,
      Nat.add_right_comm]
    rfl

theorem root?_placed_unshifted {labelAt : Nat → String} {v h : Rat} {s : Shape Nat} {depth : Nat}
    {parent : Option Nat} {here : Nat} {n : PlacedNode Rat}
    (top : (placed labelAt v (Arrangement.ofShape h s) 0 depth parent here).root? = some n) :
    n.shift = 0 ∧ ∀ i, s = .leaf i → n.x = 0 := by
  cases s with
  | empty => cases top
  | node i l r =>
    obtain ⟨x, d, -, leaf, joined⟩ :=
      Arrangement.join_spec h i (Arrangement.ofShape h l) (Arrangement.ofShape h r)
    rw [Arrangement.ofShape, joined] at top
    cases top
    refine ⟨add_zero 0, ?_⟩
    intro j alone
    cases alone
    simpa using leaf rfl rfl

end Layout

namespace Tree

variable {K : Type} [Scalar K]

/-! ## The second pass shifts right children only -/

theorem shiftAt_placedAt (t : Tree K) (j i : Nat) (x : K) :
    (t.modify j (Node.placedAt x)).shiftAt i = t.shiftAt i := by
  rw [shiftAt, shiftAt, node?_modify]
  split
  · cases t.node? i <;> rfl
  · rfl

theorem shiftAt_separateLevel {h : K} {left right i : Nat} (apart : right ≠ i) (t : Tree K)
    (leftLevel rightLevel : List Nat) :
    (t.separateLevel h left right leftLevel rightLevel).shiftAt i = t.shiftAt i := by
  unfold separateLevel
  split
  · dsimp only
    split
    · rw [shiftAt, node?_modify, if_neg apart, shiftAt]
    · rfl
  · rfl

theorem shiftAt_separateLevels {h : K} {left right i : Nat} (apart : right ≠ i) (steps : Nat)
    (t : Tree K) (leftLevel rightLevel : List Nat) :
    (separateLevels h left right steps t leftLevel rightLevel).shiftAt i = t.shiftAt i := by
  induction steps generalizing t leftLevel rightLevel with
  | zero => rfl
  | succ steps ih =>
    rw [separateLevels]
    split
    · rfl
    · exact (ih _ _ _).trans (shiftAt_separateLevel apart t leftLevel rightLevel)

theorem shiftAt_putOver {t : Tree K} {i j : Nat} (apart : ¬t.Hangs j .right i) (h : K) :
    (t.putOver h j).shiftAt i = t.shiftAt i := by
  unfold putOver
  cases stored : t.node? j with
  | none => rfl
  | some n =>
    obtain ⟨label, left, right, parent, x, y, shift⟩ := n
    cases left with
    | none => cases right <;> exact shiftAt_placedAt t j i _
    | some left =>
      cases right with
      | none => exact shiftAt_placedAt t j i _
      | some right =>
        have other : right ≠ i := by
          rintro rfl
          exact apart ⟨_, stored, rfl⟩
        exact (shiftAt_placedAt _ j i _).trans (shiftAt_separateLevels other _ t _ _)

/-- A node that is no right child keeps its shift through the second pass. -/
theorem shiftAt_foldl_putOver {t : Tree K} {i : Nat} {order : List Nat}
    (apart : ∀ j ∈ order, ¬t.Hangs j .right i) (h : K) :
    (order.foldl (putOver h) t).shiftAt i = t.shiftAt i := by
  induction order generalizing t with
  | nil => rfl
  | cons j order ih =>
    obtain ⟨first, others⟩ := List.forall_mem_cons.mp apart
    have links := (sameFrame_putOver h t j).sameLinks
    rw [List.foldl_cons, ih, shiftAt_putOver first]
    intro k member
    rw [← links.hangs_iff]
    exact others k member

omit [Scalar K] in
/-- A node on the leftmost path is no right child. -/
theorem WellFormed.not_hangs_right {t : Tree K} (wf : t.WellFormed) {root k i : Nat}
    (isRoot : t.root = some root) (leads : t.follow? root (Shape.lefts k) = some i) {j : Nat}
    (reachable : t.Reachable j) : ¬t.Hangs j .right i := by
  intro right
  cases k with
  | zero =>
    cases leads
    obtain ⟨root', isRoot', path⟩ := reachable
    cases isRoot.symm.trans isRoot'
    exact wf.acyclic ⟨root, isRoot, .refl⟩ (.tail' path ⟨.right, right⟩)
  | succ k =>
    rw [Shape.lefts, List.replicate_succ', follow?_append] at leads
    obtain ⟨p, above, below⟩ := Option.bind_eq_some_iff.mp leads
    have left : t.Hangs p .left i := by
      rw [hangs_iff_child?, ← below, follow?_cons]
      cases t.child? p .left <;> rfl
    have sides :=
      wf.oneParent ⟨root, isRoot, reaches_iff_follow?.mpr ⟨_, above⟩⟩ reachable left right
    cases sides.2

/-- Through the second pass the nodes of the leftmost path are not shifted. -/
theorem WellFormed.unshifted_of_lefts {t : Tree K} (wf : t.WellFormed) {root k i : Nat}
    (isRoot : t.root = some root) (leads : t.follow? root (Shape.lefts k) = some i) (h v : K)
    {before after : List Nat} (order : t.postOrder = before ++ after) :
    (before.foldl (putOver h) (t.assignLevels v root).1).shiftAt i = 0.0 := by
  have ready := wf.ready isRoot v
  have reaches {j : Nat} (member : j ∈ t.shape.preOrder) : t.Reachable j :=
    wf.spans_shape.mem_preOrder_iff.mp member
  have here : i ∈ t.shape.preOrder :=
    wf.spans_shape.mem_preOrder_iff.mpr ⟨root, isRoot, reaches_iff_follow?.mpr ⟨_, leads⟩⟩
  rw [shiftAt_foldl_putOver, ready.unshifted here]
  intro j member right
  have visited : j ∈ t.shape.postOrder := by
    rw [← wf.postOrder_eq, order]
    exact List.mem_append_left _ member
  exact wf.not_hangs_right isRoot leads (reaches (t.shape.postOrder_perm.mem_iff.mp visited))
    (ready.links.hangs_iff.mpr right)

end Tree

namespace Layout

variable {t : Tree Rat} {radius : Rat} {style : Style} {factors : LayoutFactors Rat}
  {layout : Layout Rat}

/-- In the layout of a full tree nothing is to the left of zero. -/
theorem x_nonneg (full : t.shape.Full) (laid : compute t radius style factors = .ok layout) :
    ∀ n ∈ layout.nodes, 0 ≤ n.x := by
  intro n member
  obtain ⟨k, level⟩ := Shape.mem_preOrder_iff.mp ((mem_nodes_iff laid).mp member)
  obtain ⟨x, inRow, place⟩ := exists_mem_row level
  rw [place, add_zero]
  exact Arrangement.row_nonneg full _ k x inRow

theorem offsetX_eq_zero (full : t.shape.Full)
    (laid : compute t radius style factors = .ok layout) : layout.offsetX = 0 := by
  obtain ⟨-, -, -, offset⟩ := compute_spec laid
  have nonneg : 0 ≤ minX layout.nodes := by
    rcases (isLeast_minX layout).1 with zero | ⟨n, member, least⟩
    · exact zero.ge
    · rw [← least]
      exact x_nonneg full laid n member
  rw [offset, if_neg (not_lt.mpr nonneg)]

/-- A node on the leftmost path is placed without a shift, and at zero if it is a leaf. -/
theorem exists_unshifted (wf : t.WellFormed) (laid : compute t radius style factors = .ok layout)
    {root k i : Nat} (isRoot : t.root = some root)
    (leads : t.follow? root (Shape.lefts k) = some i) :
    ∃ p, layout.nodeAt? i = some p ∧ p.shift = 0 ∧
      (t.shape.subtree (Shape.lefts k) = .leaf i → p.x = 0) := by
  obtain ⟨p, top, placedAt⟩ := exists_nodeAt? wf laid isRoot leads
  obtain ⟨parent, here, below⟩ := subtree_placed_lefts t.labelAt layout.verticalSpacing
    layout.horizontalSpacing t.shape 0 none 0 k
  rw [picture, below] at top
  obtain ⟨unshifted, atZero⟩ := root?_placed_unshifted top
  exact ⟨p, placedAt, unshifted, atZero i⟩

/-- A tree that is read from a description needs no offset: it has no child or two at every node, so
that nothing is to the left of zero. The leaf at the end of the leftmost path is at zero, and the
nodes on this path are not shifted, neither after any number of steps of the second pass nor in the
end. -/
theorem described_needs_no_offset {cs : List Char} {desc : TreeDescription Rat}
    (parsed : TreeDescription.parse cs = .ok desc)
    (laid : compute desc.tree radius style factors = .ok layout) :
    (∀ i, desc.tree.Reachable i →
        (desc.tree.children i).length = 0 ∨ (desc.tree.children i).length = 2) ∧
      (∀ n ∈ layout.nodes, 0 ≤ n.x) ∧ layout.offsetX = 0 ∧
      ∃ root, desc.tree.root = some root ∧
        (∃ k leaf p, desc.tree.follow? root (Shape.lefts k) = some leaf ∧
          desc.tree.children leaf = [] ∧ layout.nodeAt? leaf = some p ∧ p.x = 0) ∧
        ∀ k i, desc.tree.follow? root (Shape.lefts k) = some i →
          (∃ p, layout.nodeAt? i = some p ∧ p.shift = 0) ∧
          ∀ before after, desc.tree.postOrder = before ++ after →
            (before.foldl (Tree.putOver layout.horizontalSpacing)
              (desc.tree.assignLevels layout.verticalSpacing root).1).shiftAt i = 0 := by
  obtain ⟨d, rfl⟩ := TreeDescription.exists_derivation_of_parse parsed
  have wf := TreeDescription.wellFormed_description (K := Rat) d
  have shape := TreeDescription.shape_description (K := Rat) d
  have full : (d.description (K := Rat)).tree.shape.Full := shape ▸ d.full_places 0
  have isRoot : (d.description (K := Rat)).tree.root = some 0 := rfl
  have spans := isRoot ▸ wf.spans_shape
  refine ⟨(TreeDescription.describes_description d).binary, x_nonneg full laid,
    offsetX_eq_zero full laid, 0, isRoot, ?_, fun k i leads => ⟨?_, fun before after order => ?_⟩⟩
  · obtain ⟨k, leaf, ends⟩ := full.exists_leftmost wf.shape_ne_empty
    have leads : (d.description (K := Rat)).tree.follow? 0 (Shape.lefts k) = some leaf := by
      rw [spans.follow?_eq, ends]
      rfl
    obtain ⟨p, placedAt, -, atZero⟩ := exists_unshifted wf laid isRoot leads
    have childless : (d.description (K := Rat)).tree.children leaf = [] := by
      have below := spans.subtree (Shape.lefts k)
      rw [leads, ends, Shape.leaf] at below
      cases below with
      | @node _ n _ _ stored left right =>
        have noLeft := left.root?
        have noRight := right.root?
        simp [Tree.children, stored, ← noLeft, ← noRight, Shape.root?]
    exact ⟨k, leaf, p, leads, childless, placedAt, atZero ends⟩
  · obtain ⟨p, placedAt, unshifted, -⟩ := exists_unshifted wf laid isRoot leads
    exact ⟨p, placedAt, unshifted⟩
  · rw [wf.unshifted_of_lefts isRoot leads _ _ order, Scalar.zero_literal]

theorem described_needs_no_offset_cousins : ∃ (desc : TreeDescription Rat) (layout : Layout Rat),
    TreeDescription.parse "A(B(D,E),C(F,G))".toList = .ok desc ∧
      compute desc.tree 10 {} {} = .ok layout ∧ layout.offsetX = 0 ∧
      ∃ leaf p, desc.tree.follow? 0 [.left, .left] = some leaf ∧
        layout.nodeAt? leaf = some p ∧ p.shift = 0 := by
  let d : TreeDescription.Derivation :=
    .branch "A" (.branch "B" (.leaf "D") (.leaf "E")) (.branch "C" (.leaf "F") (.leaf "G"))
  have words : (lex "A(B(D,E),C(F,G))".toList).toOption.map (List.map Lexeme.token) =
      some d.words := by decide +kernel
  obtain ⟨lexemes, split, same⟩ := toOption_map_eq_some.mp words
  have parsed := TreeDescription.parse_of_derivation (K := Rat) split same
  obtain ⟨layout, laid⟩ := exists_layout (t := (d.description (K := Rat)).tree)
    (Option.some_ne_none 0) (by norm_num : (0 : Rat) < 10) {} {}
  obtain ⟨-, -, offset, root, isRoot, -, along⟩ := described_needs_no_offset parsed laid
  cases isRoot
  have leads : (d.description (K := Rat)).tree.follow? 0 [.left, .left] = some 2 := by
    decide +kernel
  obtain ⟨p, placedAt, unshifted⟩ := (along 2 2 leads).1
  exact ⟨_, layout, parsed, laid, offset, 2, p, leads, placedAt, unshifted⟩

end Layout

end TreeDiagram
