import Mathlib.Tactic.Ring
import TreeDiagram.Proofs.Layout.Family
import TreeDiagram.Proofs.Layout.Picture
/-!
# Parents over their children

A parent of two children is put in the middle over them, a parent of one a step beside it. All moves
that follow move the parent and its children alike, so that they stand like this in the layout too.
-/

namespace TreeDiagram

/-- How a parent at `x` stands to its left and its right child, as far as there are any. -/
inductive StandsOver (h x : Rat) : Option Rat → Option Rat → Prop
  | leaf : StandsOver h x none none
  | onlyLeft {left : Rat} (beside : x = left + h) : StandsOver h x (some left) none
  | onlyRight {right : Rat} (beside : x = right - h) : StandsOver h x none (some right)
  | both {left right : Rat} (middle : x = (left + right) / 2) (left_le : left + h ≤ x)
      (le_right : x + h ≤ right) : StandsOver h x (some left) (some right)

theorem StandsOver.moved {h x : Rat} {left right : Option Rat} (stands : StandsOver h x left right)
    (d : Rat) : StandsOver h (x + d) (left.map (· + d)) (right.map (· + d)) := by
  cases stands with
  | leaf => exact .leaf
  | onlyLeft beside => exact .onlyLeft (by linarith)
  | onlyRight beside => exact .onlyRight (by linarith)
  | both middle left_le le_right => exact .both (by linarith) (by linarith) (by linarith)

namespace Arrangement

/-- Where the top of an arrangement stands, if there is one. -/
def top? (a : Arrangement Rat) : Option Rat := a.root?.map fun s => s.x + s.shift

theorem top?_eq {a : Arrangement Rat} (some_ : a ≠ .empty) : a.top? = some a.top := by
  cases a with
  | empty => exact absurd rfl some_
  | node s l r => rfl

theorem join_node_node {K : Type} [Scalar K] (h : K) (i : Nat) (s s' : Spot K)
    (l r l' r' : Arrangement K) : join h i (.node s l r) (.node s' l' r') =
      .node ⟨i, middle (.node s l r) (separate h (.node s l r) (.node s' l' r')), 0.0⟩
        (.node s l r) (separate h (.node s l r) (.node s' l' r')) :=
  rfl

theorem standsOver_ofShape {h : Rat} {i : Nat} {left right : Shape Nat} {spot : Spot Rat}
    {l r : Arrangement Rat} (whole : ofShape h (.node i left right) = .node spot l r) :
    StandsOver h spot.x l.top? r.top? := by
  rw [ofShape] at whole
  have unshiftedLeft := @top_ofShape h left
  have unshiftedRight := @top_ofShape h right
  generalize ofShape h left = a at whole unshiftedLeft
  generalize ofShape h right = b at whole unshiftedRight
  cases a with
  | empty =>
    cases b with
    | empty =>
      cases whole
      exact .leaf
    | node s l' r' =>
      cases whole
      rw [top?_eq (a := .node s l' r') (by simp), unshiftedRight rfl]
      exact .onlyRight rfl
  | node s l' r' =>
    cases b with
    | empty =>
      cases whole
      rw [top?_eq (by simp), unshiftedLeft rfl]
      exact .onlyLeft rfl
    | node s' l'' r'' =>
      obtain ⟨left_le, le_right⟩ :=
        join_steps (fun _ _ _ => unshiftedLeft) (fun _ _ _ => unshiftedRight) whole
      obtain ⟨d, -, apart⟩ := separate_least h (.node s l' r') (.node s' l'' r'')
      rw [join_node_node, apart] at whole
      cases whole
      have someRight : moved d (.node s' l'' r'') ≠ .empty := by simp [moved]
      rw [top?_eq (by simp), top?_eq someRight]
      refine .both ?_ (left_le (by simp)) (le_right someRight)
      simp only [middle, Scalar.two_literal]
      ring

end Arrangement

namespace Layout

theorem root?_placed {labelAt : Nat → String} {v : Rat} (a : Arrangement Rat) (shift : Rat)
    (depth : Nat) (parent : Option Nat) (here : Nat) :
    (placed labelAt v a shift depth parent here).root?.map PlacedNode.x =
      a.top?.map (· + shift) := by
  cases a with
  | empty => rfl
  | node s l r => simp [placed, Shape.root?, Arrangement.top?, add_assoc]

/-- Where the nodes of a tree are placed, a parent stands over its children. -/
theorem standsOver_placed {labelAt : Nat → String} {v h : Rat} {s : Shape Nat} {shift : Rat}
    {depth : Nat} {parent : Option Nat} {here : Nat} {p : PlacedNode Rat}
    {l r : Shape (PlacedNode Rat)}
    (whole : placed labelAt v (Arrangement.ofShape h s) shift depth parent here = .node p l r) :
    StandsOver h p.x (l.root?.map PlacedNode.x) (r.root?.map PlacedNode.x) := by
  cases s with
  | empty => cases whole
  | node i left right =>
    cases own : Arrangement.ofShape h (.node i left right) with
    | empty =>
      rw [own] at whole
      cases whole
    | node spot a b =>
      have stands := Arrangement.standsOver_ofShape own
      rw [own] at whole
      cases whole
      rw [root?_placed, root?_placed]
      exact stands.moved _

variable {t : Tree Rat} {radius : Rat} {style : Style} {factors : LayoutFactors Rat}
  {layout : Layout Rat}

/-- In the layout of a well-formed tree a parent of two children stands in the middle between them,
at least the horizontal spacing beside each, and a parent of one child stands the horizontal spacing
beside it: to the right of a left child and to the left of a right one. -/
theorem parents_over_children (wf : t.WellFormed)
    (laid : compute t radius style factors = .ok layout) (positive : 0 < layout.horizontalSpacing)
    {i : Nat} (reachable : t.Reachable i) {n : Node Rat} (stored : t.node? i = some n) :
    ∃ p, layout.nodeAt? i = some p ∧
      (∀ l r, n.left = some l → n.right = some r → ∃ pl pr,
        layout.nodeAt? l = some pl ∧ layout.nodeAt? r = some pr ∧ p.x = (pl.x + pr.x) / 2 ∧
        pl.x + layout.horizontalSpacing ≤ p.x ∧ p.x + layout.horizontalSpacing ≤ pr.x ∧
        pl.x < p.x ∧ p.x < pr.x) ∧
      (∀ l, n.left = some l → n.right = none → ∃ pl,
        layout.nodeAt? l = some pl ∧ p.x = pl.x + layout.horizontalSpacing) ∧
      (∀ r, n.left = none → n.right = some r → ∃ pr,
        layout.nodeAt? r = some pr ∧ p.x = pr.x - layout.horizontalSpacing) := by
  obtain ⟨root, isRoot, path_⟩ := reachable
  obtain ⟨path, leads⟩ := Tree.reaches_iff_follow?.mp path_
  obtain ⟨_, shift, parent, here, -, below⟩ := picture_subtree wf layout isRoot leads
  obtain ⟨p, found, placedAt⟩ := exists_nodeAt? wf laid isRoot leads
  cases whole : (picture t layout).subtree path with
  | empty =>
    rw [whole] at found
    cases found
  | node q lp rp =>
    rw [whole] at found
    cases found
    have stands := standsOver_placed (below.symm.trans whole)
    -- what is below the parent in the picture are the nodes that it links to
    have child (side : Side) :
        ((Shape.node p lp rp).branch side).root?.map PlacedNode.node = n.link side := by
      have further := map_node_root? wf layout isRoot (path ++ [side])
      rw [Shape.subtree_append, whole, Tree.follow?_append, leads, Option.bind_some,
        Tree.follow?_cons, Tree.child?, stored] at further
      simpa using further
    have placedChild (side : Side) {q : PlacedNode Rat}
        (top : ((Shape.node p lp rp).branch side).root? = some q) :
        layout.nodeAt? q.node = some q := by
      have further : ((picture t layout).subtree (path ++ [side])).root? = some q := by
        rw [Shape.subtree_append, whole]
        exact top
      exact nodeAt?_of_root? wf laid further
    have childl : lp.root?.map PlacedNode.node = n.left := child .left
    have childr : rp.root?.map PlacedNode.node = n.right := child .right
    rw [← childl, ← childr]
    refine ⟨p, placedAt, fun l r isl isr => ?_, fun l isl nor => ?_, fun r nol isr => ?_⟩
    · obtain ⟨pl, topl, rfl⟩ := Option.map_eq_some_iff.mp isl
      obtain ⟨pr, topr, rfl⟩ := Option.map_eq_some_iff.mp isr
      rw [topl, topr] at stands
      cases stands with
      | both middle left_le le_right =>
        exact ⟨pl, pr, placedChild .left topl, placedChild .right topr,
          middle, left_le, le_right, by linarith, by linarith⟩
    · obtain ⟨pl, topl, rfl⟩ := Option.map_eq_some_iff.mp isl
      rw [topl, Option.map_eq_none_iff.mp nor] at stands
      cases stands with
      | onlyLeft beside => exact ⟨pl, placedChild .left topl, beside⟩
    · obtain ⟨pr, topr, rfl⟩ := Option.map_eq_some_iff.mp isr
      rw [topr, Option.map_eq_none_iff.mp nol] at stands
      cases stands with
      | onlyRight beside => exact ⟨pr, placedChild .right topr, beside⟩

/-- The aunt has a left child only, the top of the tree has two children. -/
theorem parents_over_children_cousins :
    Tree.cousins.WellFormed ∧ compute Tree.cousins 10 {} {} = .ok cousins ∧
      0 < cousins.horizontalSpacing ∧ Tree.cousins.Reachable 0 ∧
      ∃ p, cousins.nodeAt? 0 = some p ∧ ∃ pl pr, cousins.nodeAt? 1 = some pl ∧
        cousins.nodeAt? 3 = some pr ∧ p.x = (pl.x + pr.x) / 2 ∧ pl.x < p.x ∧ p.x < pr.x := by
  have positive : 0 < cousins.horizontalSpacing := by decide +kernel
  have reachable : Tree.cousins.Reachable 0 := ⟨0, rfl, .refl⟩
  obtain ⟨p, placed, both, -, -⟩ := parents_over_children Tree.wellFormed_cousins compute_cousins
    positive reachable (n := Tree.cousins.nodes[0]) rfl
  obtain ⟨pl, pr, placedl, placedr, middle, -, -, left, right⟩ := both 1 3 rfl rfl
  exact ⟨Tree.wellFormed_cousins, compute_cousins, positive, reachable, p, placed, pl, pr, placedl,
    placedr, middle, left, right⟩

end Layout

end TreeDiagram
