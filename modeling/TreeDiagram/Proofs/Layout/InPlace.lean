import TreeDiagram.Proofs.Layout.Downward
import TreeDiagram.Proofs.Layout.Nodes
import TreeDiagram.Proofs.Layout.Upward
/-!
# The passes in place

On a well-formed tree the three passes find the layout that is computed from the arrangement of the
tree, and leave the coordinates of its nodes in the tree. Of the numbers nothing is used but that
zero and zero is zero.
-/

namespace TreeDiagram

namespace Layout

variable {K : Type}

theorem node?_foldl_modify_of_notMem (f : PlacedNode K → Node K → Node K) (t : Tree K)
    {placed : List (PlacedNode K)} {j : Nat} (apart : j ∉ placed.map PlacedNode.node) :
    (placed.foldl (fun t n => t.modify n.node (f n)) t).node? j = t.node? j := by
  induction placed generalizing t with
  | nil => rfl
  | cons n placed ih =>
    rw [List.map_cons, List.mem_cons, not_or] at apart
    rw [List.foldl_cons, ih _ apart.2, Tree.node?_modify, if_neg (Ne.symm apart.1)]

/-- A walk over placed nodes that changes the stored node of each: different nodes are changed once,
as they were stored at first. -/
theorem node?_foldl_modify_of_mem {placed : List (PlacedNode K)}
    (distinct : (placed.map PlacedNode.node).Nodup) (f : PlacedNode K → Node K → Node K)
    (t : Tree K) {n : PlacedNode K} (member : n ∈ placed) :
    (placed.foldl (fun t n => t.modify n.node (f n)) t).node? n.node =
      (t.node? n.node).map (f n) := by
  induction placed generalizing t with
  | nil => cases member
  | cons m placed ih =>
    rw [List.map_cons, List.nodup_cons] at distinct
    rw [List.foldl_cons]
    rcases List.mem_cons.mp member with rfl | member
    · rw [node?_foldl_modify_of_notMem f _ distinct.1, Tree.node?_modify, if_pos rfl]
    · rw [ih distinct.2 _ member, Tree.node?_modify, if_neg]
      intro same
      exact distinct.1 (same ▸ List.mem_map_of_mem member)

theorem root_foldl_modify (f : PlacedNode K → Node K → Node K) (t : Tree K)
    (placed : List (PlacedNode K)) :
    (placed.foldl (fun t n => t.modify n.node (f n)) t).root = t.root := by
  induction placed generalizing t with
  | nil => rfl
  | cons n placed ih => exact ih _

theorem sameLinks_foldl_modify {f : PlacedNode K → Node K → Node K}
    (kept : ∀ n m, (f n m).links = m.links) (t : Tree K) (placed : List (PlacedNode K)) :
    t.SameLinks (placed.foldl (fun t n => t.modify n.node (f n)) t) := by
  induction placed generalizing t with
  | nil => exact .refl t
  | cons n placed ih => exact (Tree.SameLinks.modify t n.node (kept n)).trans (ih _)

/-- The stored node with the coordinates and the parent of a placed one. -/
def settled (placed : Array (PlacedNode K)) (n : PlacedNode K) (stored : Node K) : Node K :=
  { stored with
    parent := (n.parent.bind fun p => placed[p]?).map PlacedNode.node
    x := n.x
    y := n.y
    shift := n.shift }

end Layout

/-- A parent itself is not shifted. -/
theorem Arrangement.exists_join {K : Type} [Scalar K] (h : K) (i : Nat)
    (left right : Arrangement K) : ∃ x a b, join h i left right = .node ⟨i, x, 0.0⟩ a b := by
  cases left with
  | empty => cases right <;> exact ⟨_, _, _, rfl⟩
  | node => cases right <;> exact ⟨_, _, _, rfl⟩

namespace Tree

variable {K : Type} {t : Tree K} {placed : Array (PlacedNode K)}

theorem settle_eq (t : Tree K) (placed : Array (PlacedNode K)) : t.settle placed =
    placed.toList.foldl (fun t n => t.modify n.node (Layout.settled placed n)) t := by
  rw [settle, ← Array.foldl_toList]
  rfl

theorem root_settle (t : Tree K) (placed : Array (PlacedNode K)) :
    (t.settle placed).root = t.root := by
  rw [settle_eq, Layout.root_foldl_modify]

theorem sameLinks_settle (t : Tree K) (placed : Array (PlacedNode K)) :
    t.SameLinks (t.settle placed) := by
  rw [settle_eq]
  exact Layout.sameLinks_foldl_modify (f := Layout.settled placed) (fun _ _ => rfl) t placed.toList

theorem node?_settle_of_mem (distinct : (placed.toList.map PlacedNode.node).Nodup)
    {n : PlacedNode K} (member : n ∈ placed) :
    (t.settle placed).node? n.node = (t.node? n.node).map (Layout.settled placed n) := by
  rw [settle_eq, Layout.node?_foldl_modify_of_mem distinct _ _ (Array.mem_toList_iff.mpr member)]

theorem node?_settle_of_notMem {j : Nat} (apart : j ∉ placed.toList.map PlacedNode.node) :
    (t.settle placed).node? j = t.node? j := by
  rw [settle_eq, Layout.node?_foldl_modify_of_notMem _ _ apart]

variable [Scalar K]

/-- A whole arrangement is not shifted at its top. -/
theorem shiftAt_of_arranged {h : K} {i : Nat} {s : Shape Nat} (spans : t.Spans (some i) s)
    (arranged : t.arrangement s = Arrangement.ofShape h s) : t.shiftAt i = 0.0 := by
  cases spans with
  | @node _ _ l r _ _ _ =>
    obtain ⟨x, a, b, joined⟩ :=
      Arrangement.exists_join h i (Arrangement.ofShape h l) (Arrangement.ofShape h r)
    rw [Arrangement.ofShape, joined, arrangement_node] at arranged
    injection arranged with spot
    exact congrArg Spot.shift spot

/-- After the second pass. -/
structure Risen (h v : K) (t t' : Tree K) (levels : Array Nat) : Prop where
  links : t.SameLinks t'
  root : t'.root = t.root
  threaded : t'.Threaded none t.root t.shape
  arranged : t'.arrangement t.shape = Arrangement.ofShape h t.shape
  onLevels : Placing.OnLevels t' v levels t.shape 0
  others : ∀ i, i ∉ t.shape.preOrder → t'.node? i = t.node? i

theorem WellFormed.risen (wf : t.WellFormed) {root : Nat} (isRoot : t.root = some root) (h v : K) :
    Risen h v t ((t.assignLevels v root).1.assignRelativeX h) (t.assignLevels v root).2 := by
  have ready := wf.ready isRoot v
  have order : (t.assignLevels v root).1.postOrder = t.shape.postOrder := by
    rw [(ready.links.wellFormed ready.root.symm wf).postOrder_eq,
      ready.links.shape_eq ready.root.symm]
  have arranged : Arranged h (t.assignLevels v root).1 t.shape
      ((t.assignLevels v root).1.assignRelativeX h) := by
    rw [assignRelativeX, order]
    exact foldl_putOver_arranged ⟨ready.threaded, wf.nodup_shape, fun i => ready.unshifted⟩ h
  refine ⟨ready.links.trans arranged.frame.sameLinks, arranged.root.trans ready.root,
    arranged.frame.threaded ready.threaded, arranged.arranged, fun k i n member stored => ?_,
    fun i outside => (arranged.others i outside).trans (ready.others i outside)⟩
  obtain ⟨m, stored', frame⟩ := Option.map_eq_some_iff.mp
    ((arranged.frame i).trans (congrArg (Option.map Node.frame) stored))
  have height : n.y = m.y := congrArg (fun frame => frame.2.2) frame.symm
  rw [Nat.zero_add, height]
  exact ⟨(ready.cleared k i m member stored').2.1, ready.known k i member⟩

/-- The third pass places every node as its arrangement says. -/
theorem Risen.finalized {h v : K} {t' : Tree K} {levels : Array Nat} (risen : Risen h v t t' levels)
    (wf : t.WellFormed) (zero : (0.0 : K) + 0.0 = 0.0) :
    Placing.Sound t' (t'.finalize levels) ∧
      (t'.finalize levels).nodes = Layout.placeAll t h v := by
  have order : t'.preOrder = t.shape.preOrder := by
    rw [(risen.links.wellFormed risen.root.symm wf).preOrder_eq,
      risen.links.shape_eq risen.root.symm]
  have inherits (i : Nat) (n : Node K) (top : t.root = some i) (stored : t'.node? i = some n) :
      (Placing.start t').Inherits n 0.0 none := by
    have threaded := risen.threaded
    rw [top] at threaded
    have orphan : n.parent = none := threaded.parent_eq stored
    have unshifted : n.shift = 0.0 := by
      rw [← shiftAt_of_node? stored]
      exact shiftAt_of_arranged threaded.spans risen.arranged
    refine ⟨?_, ?_, ?_⟩
    · simp only [Placing.totalShift, orphan, Option.bind_none, unshifted, zero]
    · rw [orphan]
      rfl
    · intro q parent
      rw [orphan] at parent
      cases parent
  have run := Placing.foldl_next risen.threaded wf.nodup_shape risen.onLevels
    (Placing.sound_start t') (fun _ _ => rfl) inherits
  rw [finalize, order]
  refine ⟨run.sound, ?_⟩
  rw [run.nodes, risen.arranged, ← risen.links.labelAt_eq]
  rfl

/-- What the third pass leaves in the tree are the coordinates and the parents of the placed nodes.
-/
theorem Risen.tree_finalize {h v : K} {t' : Tree K} {levels : Array Nat}
    (risen : Risen h v t t' levels) (wf : t.WellFormed) (zero : (0.0 : K) + 0.0 = 0.0) :
    (t'.finalize levels).tree = t.settle (Layout.placeAll t h v) := by
  obtain ⟨sound, nodes⟩ := risen.finalized wf zero
  have items : (Layout.placeAll t h v).toList.map PlacedNode.node = t.shape.preOrder := by
    simp [Layout.placeAll, Layout.map_node_place, Arrangement.map_node_ofShape]
  have distinct : ((Layout.placeAll t h v).toList.map PlacedNode.node).Nodup :=
    items ▸ wf.nodup_shape
  have written : (t'.finalize levels).tree = (Layout.placeAll t h v).toList.foldl
      (fun t n => t.modify n.node (Node.settledAt n.x n.shift)) t' := by
    rw [sound.tree, nodes, ← Array.foldl_toList]
    rfl
  refine ext_node? ?_ fun j => ?_
  · rw [written, Layout.root_foldl_modify, root_settle, risen.root]
  · rw [written]
    by_cases reached : j ∈ (Layout.placeAll t h v).toList.map PlacedNode.node
    · obtain ⟨n, member, rfl⟩ := List.mem_map.mp reached
      rw [Layout.node?_foldl_modify_of_mem distinct (fun n => Node.settledAt n.x n.shift) t' member,
        node?_settle_of_mem distinct (Array.mem_toList_iff.mp member)]
      obtain ⟨m, stored, height, names⟩ :=
        sound.stored n (nodes ▸ Array.mem_toList_iff.mp member)
      obtain ⟨m', stored', label, left, right⟩ := risen.links.symm.exists_node stored
      have parent : (n.parent.bind fun p => (Layout.placeAll t h v)[p]?).map PlacedNode.node =
          m.parent := by
        rw [← nodes]
        exact Placing.parent_of_names names
      rw [stored, stored', Option.map_some, Option.map_some, Node.settledAt, Layout.settled, parent,
        label, left, right, height]
    · rw [Layout.node?_foldl_modify_of_notMem _ _ reached, node?_settle_of_notMem reached,
        risen.others j (items ▸ reached)]

/-- The passes in place find the layout that is drawn. The nodes of a tree without a layout stay as
they are. -/
theorem layOutInPlace_eq (wf : t.WellFormed) (zero : (0.0 : K) + 0.0 = 0.0) (radius : K)
    (style : Style) (factors : LayoutFactors K) :
    t.layOutInPlace radius style factors =
      match t.layOut radius style factors with
      | .ok (layout, settled) => (.ok layout, settled)
      | .error e => (.error e, t) := by
  obtain ⟨root, isRoot⟩ := wf.rooted
  rw [layOutInPlace, layOut, Layout.compute, isRoot]
  by_cases valid : 0.0 < radius ∧ Scalar.isFinite radius
  · have risen := wf.risen isRoot (factors.spacing radius style).1 (factors.spacing radius style).2
    obtain ⟨sound, nodes⟩ := risen.finalized wf zero
    have tree := risen.tree_finalize wf zero
    simp only [Option.isNone_some, Bool.false_eq_true, if_false, if_pos valid, sound.minX,
      sound.maxX, sound.maxY, nodes, tree]
    rfl
  · simp only [Option.isNone_some, Bool.false_eq_true, if_false, if_neg valid]
    rfl

end Tree

end TreeDiagram
