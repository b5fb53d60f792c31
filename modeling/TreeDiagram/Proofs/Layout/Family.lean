import TreeDiagram.Proofs.Layout.Placement
/-!
# Parents beside their children

In every arrangement a parent stands at least a step to the right of its left child and at least a
step to the left of its right child. Where they are placed they keep these distances, since the
shifts from above move both of them.
-/

namespace TreeDiagram

namespace Arrangement

/-- Below every node the left child is a step to the left and the right child a step to the
right. -/
def Stepped (h : Rat) : Arrangement Rat → Prop
  | .empty => True
  | .node s l r => (l ≠ .empty → top l + h ≤ s.x) ∧ (r ≠ .empty → s.x + h ≤ top r) ∧
      Stepped h l ∧ Stepped h r

theorem stepped_moved {h d : Rat} {a : Arrangement Rat} : Stepped h (a.moved d) ↔ Stepped h a := by
  cases a <;> rfl

theorem moved_eq_empty_iff {d : Rat} {a : Arrangement Rat} : a.moved d = .empty ↔ a = .empty := by
  cases a <;> simp [moved]

/-- Two arrangements that keep their distance do so at their tops. -/
theorem Clear.top_le {h : Rat} {left right : Arrangement Rat} (clear : Clear h left right)
    (someLeft : left ≠ .empty) (someRight : right ≠ .empty) :
    left.top + 2 * h ≤ right.top := by
  have inRow : ∀ a : Arrangement Rat, a ≠ .empty → a.top ∈ row 0 a := by
    intro a some_
    cases a with
    | empty => exact absurd rfl some_
    | node s l r => simp [row, top]
  exact clear 0 _ (inRow left someLeft) _ (inRow right someRight)

/-- The top of a whole arrangement is not shifted. -/
theorem top_ofShape {h : Rat} {s : Shape Nat} {spot : Spot Rat} {l r : Arrangement Rat}
    (whole : ofShape h s = .node spot l r) : (ofShape h s).top = spot.x := by
  cases s with
  | empty => cases whole
  | node i left right =>
    obtain ⟨x, d, -, -, joined⟩ := join_spec h i (ofShape h left) (ofShape h right)
    rw [ofShape, joined] at whole ⊢
    cases whole
    exact add_zero x

/-- Where a parent is put over the arrangements of its children. -/
theorem join_steps {h : Rat} {i : Nat} {left right l r : Arrangement Rat} {spot : Spot Rat}
    (unshiftedLeft : ∀ s l r, left = .node s l r → left.top = s.x)
    (unshiftedRight : ∀ s l r, right = .node s l r → right.top = s.x)
    (joined : join h i left right = .node spot l r) :
    (l ≠ .empty → l.top + h ≤ spot.x) ∧ (r ≠ .empty → spot.x + h ≤ r.top) := by
  cases left with
  | empty =>
    cases right with
    | empty =>
      cases joined
      exact ⟨fun some_ => absurd rfl some_, fun some_ => absurd rfl some_⟩
    | node s l' r' =>
      cases joined
      refine ⟨fun some_ => absurd rfl some_, fun _ => ?_⟩
      rw [unshiftedRight s l' r' rfl, sub_add_cancel]
  | node s l' r' =>
    cases right with
    | empty =>
      cases joined
      refine ⟨fun _ => ?_, fun some_ => absurd rfl some_⟩
      rw [unshiftedLeft s l' r' rfl]
    | node s' l'' r'' =>
      obtain ⟨d, ⟨⟨-, clear⟩, -⟩, apart⟩ := separate_least h (.node s l' r') (.node s' l'' r'')
      have distance := clear.top_le (by simp) (by simp [moved_eq_empty_iff])
      rw [join, apart] at joined
      · cases joined
        simp only [middle, Scalar.two_literal]
        constructor
        · intro _
          linarith
        · intro _
          linarith
      all_goals simp

theorem stepped_ofShape (h : Rat) (s : Shape Nat) : Stepped h (ofShape h s) := by
  induction s with
  | empty => trivial
  | node i l r ihl ihr =>
    obtain ⟨x, d, -, -, joined⟩ := join_spec h i (ofShape h l) (ofShape h r)
    have steps := join_steps (fun _ _ _ => top_ofShape) (fun _ _ _ => top_ofShape) joined
    rw [ofShape, joined]
    exact ⟨steps.1, steps.2, ihl, stepped_moved.mpr ihr⟩

end Arrangement

namespace Layout

/-- Where a node is placed, the parent that it names is a step beside it. The top of an arrangement
has the parent that the arrangement is put below. -/
theorem parent_of_mem_placed {labelAt : Nat → String} {v h : Rat} {a : Arrangement Rat}
    {shift : Rat} {depth : Nat} {parent : Option Nat} {here : Nat} {c : PlacedNode Rat}
    (stepped : a.Stepped h)
    (member : c ∈ (placed labelAt v a shift depth parent here).preOrder) :
    (a ≠ .empty ∧ c.parent = parent ∧ c.depth = depth ∧ c.x = a.top + shift) ∨
      ∃ k p, c.parent = some (here + k) ∧
        (placed labelAt v a shift depth parent here).preOrder[k]? = some p ∧
        c.depth = p.depth + 1 ∧ h ≤ |c.x - p.x| := by
  -- a parent is either the top or the parent found in a subtree, whose places begin behind the top,
  -- or behind the left subtree
  induction a generalizing shift depth parent here with
  | empty => cases member
  | node s l r ihl ihr =>
    obtain ⟨left, right, steppedl, steppedr⟩ := stepped
    simp only [placed, Shape.preOrder, List.mem_cons, List.mem_append] at member ⊢
    rcases member with rfl | member | member
    · exact .inl ⟨by simp, rfl, rfl, (add_assoc _ _ _).symm⟩
    · right
      rcases ihl steppedl member with ⟨some_, named, level, place⟩ | ⟨k, p, named, at_, facts⟩
      · refine ⟨0, _, named, rfl, level, ?_⟩
        rw [place, abs_sub_comm]
        apply le_trans _ (le_abs_self _)
        dsimp only
        linarith [left some_]
      · have inLeft := (List.getElem?_eq_some_iff.mp at_).1
        refine ⟨k + 1, p, by rw [named, Nat.add_assoc, Nat.add_comm 1], ?_, facts⟩
        rw [List.getElem?_cons_succ, List.getElem?_append_left inLeft]
        exact at_
    · right
      rcases ihr steppedr member with ⟨some_, named, level, place⟩ | ⟨k, p, named, at_, facts⟩
      · refine ⟨0, _, named, rfl, level, ?_⟩
        rw [place]
        apply le_trans _ (le_abs_self _)
        dsimp only
        linarith [right some_]
      · refine ⟨l.size + k + 1, p, ?_, ?_, facts⟩
        · rw [named, Option.some.injEq]
          omega
        · rw [List.getElem?_cons_succ, List.getElem?_append_right]
          · rw [Shape.length_preOrder, size_placed, Nat.add_sub_cancel_left]
            exact at_
          · rw [Shape.length_preOrder, size_placed]
            exact Nat.le_add_right _ _

/-- A node is one level below its parent and at least the horizontal spacing beside it. -/
theorem step_of_parentOf {t : Tree Rat} {radius : Rat} {style : Style}
    {factors : LayoutFactors Rat} {layout : Layout Rat}
    (laid : compute t radius style factors = .ok layout) {c p : PlacedNode Rat}
    (member : c ∈ layout.nodes) (parent : layout.parentOf? c = some p) :
    c.depth = p.depth + 1 ∧ layout.horizontalSpacing ≤ |c.x - p.x| := by
  obtain ⟨i, named, found⟩ := Option.bind_eq_some_iff.mp parent
  rw [← Array.getElem?_toList, (compute_spec laid).1] at found
  have steps := parent_of_mem_placed
    (Arrangement.stepped_ofShape layout.horizontalSpacing t.shape) ((mem_nodes_iff laid).mp member)
  rcases steps with ⟨-, top, -⟩ | ⟨k, q, named', found', facts⟩
  · rw [named] at top
    cases top
  · rw [named, Nat.zero_add, Option.some.injEq] at named'
    rw [named', picture, found', Option.some.injEq] at found
    rw [← found]
    exact facts

end Layout

end TreeDiagram
