import TreeDiagram.Proofs.Layout.Placement
import TreeDiagram.Proofs.Tree.Paths
/-!
# The picture of a subtree

Every node of a well-formed tree is placed once. What is placed below a node is the arrangement of
the subtree there, as if it were a tree of its own, moved by the shifts from above.
-/

namespace TreeDiagram

namespace Layout

/-- The placed node of a node of the tree. -/
def nodeAt? {K : Type} (layout : Layout K) (i : Nat) : Option (PlacedNode K) :=
  layout.nodes.find? fun n => n.node == i

theorem nodeAt?_eq_some_iff {K : Type} {layout : Layout K}
    (distinct : (layout.nodes.toList.map PlacedNode.node).Nodup) {i : Nat} {n : PlacedNode K} :
    layout.nodeAt? i = some n ↔ n ∈ layout.nodes ∧ n.node = i := by
  constructor
  · intro found
    exact ⟨Array.mem_of_find?_eq_some found, by simpa using Array.find?_some found⟩
  · rintro ⟨member, rfl⟩
    have some_ : (layout.nodeAt? n.node).isSome := by
      rw [nodeAt?, Array.find?_isSome]
      exact ⟨n, member, by simp⟩
    obtain ⟨m, found⟩ := Option.isSome_iff_exists.mp some_
    have same : m.node = n.node := by simpa using Array.find?_some found
    have inList := Array.mem_toList_iff.mpr (Array.mem_of_find?_eq_some found)
    rw [found, List.inj_on_of_nodup_map distinct inList (Array.mem_toList_iff.mpr member) same]

/-- The nodes of a layout are different nodes of a well-formed tree. -/
theorem nodup_nodes {K : Type} [Scalar K] {t : Tree K} (wf : t.WellFormed) {radius : K}
    {style : Style} {factors : LayoutFactors K} {layout : Layout K}
    (laid : compute t radius style factors = .ok layout) :
    (layout.nodes.toList.map PlacedNode.node).Nodup := by
  rw [map_node_of_compute laid]
  exact wf.nodup_shape

theorem branch_placed (labelAt : Nat → String) (v : Rat) (a : Arrangement Rat) (shift : Rat)
    (depth : Nat) (parent : Option Nat) (here : Nat) (side : Side) : ∃ shift' parent' here',
      (placed labelAt v a shift depth parent here).branch side =
        placed labelAt v (a.branch side) shift' (depth + 1) parent' here' := by
  cases a with
  | empty => exact ⟨shift, parent, here, rfl⟩
  | node s l r =>
    cases side with
    | left => exact ⟨_, _, _, rfl⟩
    | right => exact ⟨_, _, _, rfl⟩

/-- A shift at the top of an arrangement counts like one from above. -/
theorem placed_moved (labelAt : Nat → String) (v : Rat) (a : Arrangement Rat) (d shift : Rat)
    (depth : Nat) (parent : Option Nat) (here : Nat) :
    placed labelAt v (a.moved d) shift depth parent here =
      placed labelAt v a (d + shift) depth parent here := by
  cases a with
  | empty => rfl
  | node s l r => simp only [Arrangement.moved, placed, add_assoc]

end Layout

namespace Arrangement

/-- On each side of a parent there is the arrangement of its subtree there, moved as a whole. -/
theorem branch_ofShape (h : Rat) (s : Shape Nat) (side : Side) :
    ∃ d, (ofShape h s).branch side = (ofShape h (s.branch side)).moved d := by
  cases s with
  | empty => exact ⟨0, rfl⟩
  | node i l r =>
    obtain ⟨x, d, -, -, joined⟩ := join_spec h i (ofShape h l) (ofShape h r)
    rw [ofShape, joined]
    cases side with
    | left => exact ⟨0, (moved_zero _).symm⟩
    | right => exact ⟨d, rfl⟩

end Arrangement

namespace Layout

/-- Below a path there is placed what the subtree there would be as a tree of its own, with a shift
from above. -/
theorem subtree_placed (labelAt : Nat → String) (v h : Rat) (s : Shape Nat) (shift : Rat)
    (depth : Nat) (parent : Option Nat) (here : Nat) (path : List Side) : ∃ shift' parent' here',
      (placed labelAt v (Arrangement.ofShape h s) shift depth parent here).subtree path =
        placed labelAt v (Arrangement.ofShape h (s.subtree path)) shift' (depth + path.length)
          parent' here' := by
  induction path generalizing s shift depth parent here with
  | nil => exact ⟨shift, parent, here, rfl⟩
  | cons side path ih =>
    obtain ⟨shift', parent', here', below⟩ :=
      branch_placed labelAt v (Arrangement.ofShape h s) shift depth parent here side
    obtain ⟨d, own⟩ := Arrangement.branch_ofShape h s side
    obtain ⟨shift'', parent'', here'', rest⟩ :=
      ih (s.branch side) (d + shift') (depth + 1) parent' here'
    refine ⟨shift'', parent'', here'', ?_⟩
    rw [Shape.subtree_cons, below, own, placed_moved, rest, Shape.subtree_cons, List.length_cons,
      Nat.add_assoc, Nat.add_comm 1]

variable {t : Tree Rat} {radius : Rat} {style : Style} {factors : LayoutFactors Rat}
  {layout : Layout Rat}

/-- What is placed below a node of a well-formed tree. -/
theorem picture_subtree (wf : t.WellFormed) (layout : Layout Rat) {root i : Nat}
    (isRoot : t.root = some root) {path : List Side} (leads : t.follow? root path = some i) :
    ∃ s shift parent here, t.Spans (some i) s ∧
      (picture t layout).subtree path = placed t.labelAt layout.verticalSpacing
        (Arrangement.ofShape layout.horizontalSpacing s) shift path.length parent here := by
  have spans := (isRoot ▸ wf.spans_shape).subtree path
  rw [leads] at spans
  obtain ⟨shift, parent, here, below⟩ :=
    subtree_placed t.labelAt layout.verticalSpacing layout.horizontalSpacing t.shape 0 0 none 0 path
  rw [Nat.zero_add] at below
  exact ⟨_, shift, parent, here, spans, below⟩

/-- At the end of a path in the picture there is the node that the path leads to. -/
theorem map_node_root? (wf : t.WellFormed) (layout : Layout Rat) {root : Nat}
    (isRoot : t.root = some root) (path : List Side) :
    ((picture t layout).subtree path).root?.map PlacedNode.node = t.follow? root path := by
  have spans : t.Spans (some root) t.shape := isRoot ▸ wf.spans_shape
  rw [spans.follow?_eq, ← map_node_picture t layout, Shape.subtree_map, Shape.root?_map]

theorem nodeAt?_of_root? (wf : t.WellFormed) (laid : compute t radius style factors = .ok layout)
    {path : List Side} {n : PlacedNode Rat}
    (found : ((picture t layout).subtree path).root? = some n) : layout.nodeAt? n.node = some n :=
  (nodeAt?_eq_some_iff (nodup_nodes wf laid)).mpr
    ⟨(mem_nodes_iff laid).mpr (Shape.mem_preOrder_iff_path.mpr ⟨path, found⟩), rfl⟩

theorem exists_nodeAt? (wf : t.WellFormed) (laid : compute t radius style factors = .ok layout)
    {root i : Nat} (isRoot : t.root = some root) {path : List Side}
    (leads : t.follow? root path = some i) :
    ∃ n, ((picture t layout).subtree path).root? = some n ∧ layout.nodeAt? i = some n := by
  rw [← map_node_root? wf layout isRoot, Option.map_eq_some_iff] at leads
  obtain ⟨n, found, rfl⟩ := leads
  exact ⟨n, found, nodeAt?_of_root? wf laid found⟩

end Layout

end TreeDiagram
