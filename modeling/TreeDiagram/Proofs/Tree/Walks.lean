import Mathlib.Data.Nat.Basic
import Mathlib.Order.Basic
import TreeDiagram.Proofs.Tree.Traversal
/-!
# What the walks over a tree find

Each walk over a stored tree gives what recursion over the tree gives. The rows of a subtree hold
the nodes at one distance from its top, each to the left of those that come later in its row, and
the queue of the last walk finds the number of these rows whatever the order in which it is kept.
-/

namespace TreeDiagram

namespace Shape

variable {α : Type}

/-- The items on a level are what paths of one length lead to. -/
theorem mem_level_iff_path {s : Shape α} {k : Nat} {a : α} :
    a ∈ s.level k ↔ ∃ path, path.length = k ∧ (s.subtree path).root? = some a := by
  induction s generalizing k with
  | empty => simp [level, root?]
  | node b l r ihl ihr =>
    cases k with
    | zero => simp [level, root?, eq_comm]
    | succ k =>
      simp only [level, List.mem_append, ihl, ihr]
      constructor
      · rintro (⟨path, length, found⟩ | ⟨path, length, found⟩)
        · exact ⟨.left :: path, congrArg (· + 1) length, found⟩
        · exact ⟨.right :: path, congrArg (· + 1) length, found⟩
      · rintro ⟨path, length, found⟩
        cases path with
        | nil => cases length
        | cons side path =>
          cases side with
          | left => exact .inl ⟨path, Nat.succ.inj length, found⟩
          | right => exact .inr ⟨path, Nat.succ.inj length, found⟩

/-- A level runs from left to right. -/
theorem pairwise_level (s : Shape α) (k : Nat) : (s.level k).Pairwise s.LeftOf := by
  induction s generalizing k with
  | empty => simp [level]
  | node a l r ihl ihr =>
    cases k with
    | zero => exact List.pairwise_singleton _ a
    | succ k =>
      have below {x : α} {t : Shape α} (h : x ∈ t.level k) : x ∈ t.preOrder :=
        mem_preOrder_iff.mpr ⟨k, h⟩
      refine List.pairwise_append.mpr ⟨?_, ?_, fun x hx y hy => .inl ⟨below hx, below hy⟩⟩
      · exact (ihl k).imp fun order => .inr (.inl order)
      · exact (ihr k).imp fun order => .inr (.inr order)

/-- The levels, as far down as there are any, have all items between them. -/
theorem flatten_levels_perm (s : Shape α) {rows : Nat} (enough : s.height ≤ rows) :
    ((List.range rows).map (Shape.level · s)).flatten.Perm s.preOrder := by
  induction s generalizing rows with
  | empty => simp [level, preOrder]
  | node a l r ihl ihr =>
    simp only [height] at enough
    obtain ⟨rows, rfl⟩ : ∃ k, rows = k + 1 := ⟨rows - 1, by omega⟩
    have left : ((List.range rows).map (Shape.level · l)).flatten.Perm l.preOrder :=
      ihl (by omega)
    have right : ((List.range rows).map (Shape.level · r)).flatten.Perm r.preOrder :=
      ihr (by omega)
    rw [List.range_succ_eq_map, List.map_cons, List.map_map, List.flatten_cons]
    refine .cons a ?_
    -- row by row the left subtree comes before the right one
    refine .trans ?_ (left.append right)
    rw [← List.flatMap_def, ← List.flatMap_def, ← List.flatMap_def]
    exact (List.flatMap_append_perm _ _ _).symm

end Shape

namespace Tree

variable {K : Type} {t : Tree K}

/-- Rows of nodes that hold, from the top downwards, the nodes below a node by their distance, each
row from left to right. -/
structure ListsLevels (t : Tree K) (i : Nat) (rows : List (List Nat)) : Prop where
  mem_iff : ∀ k j, (∃ row, rows[k]? = some row ∧ j ∈ row) ↔
    ∃ path, path.length = k ∧ t.follow? i path = some j
  ordered : ∀ row ∈ rows, row.Pairwise t.LeftOf
  nonempty : ∀ row ∈ rows, row ≠ []

/-- A node that waits in a queue, the number of its level, and the shape below it. -/
structure Waiting where
  node : Nat
  level : Nat
  shape : Shape Nat

private theorem foldr_max_le_iff {xs : List Nat} {bound : Nat} :
    xs.foldr max 0 ≤ bound ↔ ∀ x ∈ xs, x ≤ bound := by
  induction xs with
  | nil => simp
  | cons x xs ih => rw [List.foldr_cons, Nat.max_le, ih, List.forall_mem_cons]

namespace Spans

/-- The children of a node as they are put into a queue, and how the measures of its shape follow
from theirs. -/
theorem exists_below {i : Nat} {s : Shape Nat} (h : t.Spans (some i) s) (level : Nat) :
    ∃ below : List Waiting, (t.children i).map (fun c => (c, level)) =
        below.map (fun w => (w.node, w.level)) ∧
      (∀ w ∈ below, t.Spans (some w.node) w.shape ∧ w.level = level) ∧
      s.size = (below.flatMap fun w => w.shape.preOrder).length + 1 ∧
      ∀ bound, s.height ≤ bound + 1 ↔ ∀ w ∈ below, w.shape.height ≤ bound := by
  have side {link : Option Nat} {s : Shape Nat} (spans : t.Spans link s) :
      ∃ below : List Waiting, link.toList.map (fun c => (c, level)) =
          below.map (fun w => (w.node, w.level)) ∧
        (∀ w ∈ below, t.Spans (some w.node) w.shape ∧ w.level = level) ∧
        s.size = (below.flatMap fun w => w.shape.preOrder).length ∧
        ∀ bound, s.height ≤ bound ↔ ∀ w ∈ below, w.shape.height ≤ bound := by
    cases link with
    | none =>
      cases spans
      exact ⟨[], rfl, by simp, rfl, by simp [Shape.height]⟩
    | some c => exact ⟨[⟨c, level, s⟩], rfl, by simpa using spans, by simp, by simp⟩
  cases h with
  | @node _ n l r stored left right =>
    obtain ⟨ls, links, spansl, sizel, heightl⟩ := side left
    obtain ⟨rs, links', spansr, sizer, heightr⟩ := side right
    refine ⟨ls ++ rs, ?_, fun w member => ?_, ?_, fun bound => ?_⟩
    · rw [children_of_node? stored, List.map_append, links, links', List.map_append]
    · exact (List.mem_append.mp member).elim (spansl w) (spansr w)
    · rw [List.flatMap_append, List.length_append, ← sizel, ← sizer]
      rfl
    · rw [List.forall_mem_append, ← heightl, ← heightr, Shape.height, Nat.add_le_add_iff_right,
        Nat.max_le]

theorem height_pos {i : Nat} {s : Shape Nat} (h : t.Spans (some i) s) : 0 < s.height := by
  cases h with
  | node => exact Nat.succ_pos _

/-- What bounds the deepest level that a queue leads to: it bounds the level found so far and the
lowest level of every subtree that waits. A step is needed for each node of these. -/
theorem deepest_le_iff {steps : Nat} {queue : List Waiting}
    (spans : ∀ w ∈ queue, t.Spans (some w.node) w.shape)
    (enough : (queue.flatMap fun w => w.shape.preOrder).length ≤ steps) {found bound : Nat} :
    t.deepest steps (queue.map fun w => (w.node, w.level)) found ≤ bound ↔
      found ≤ bound ∧ ∀ w ∈ queue, w.level + w.shape.height ≤ bound + 1 := by
  induction steps generalizing queue found with
  | zero =>
    cases queue with
    | nil => simp [deepest]
    | cons w queue =>
      obtain ⟨_, _, _, size, _⟩ := (spans w List.mem_cons_self).exists_below 0
      rw [List.flatMap_cons, List.length_append, Shape.length_preOrder, size] at enough
      omega
  | succ steps ih =>
    cases queue with
    | nil => simp [deepest]
    | cons w queue =>
      obtain ⟨here, later⟩ := List.forall_mem_cons.mp spans
      obtain ⟨below, children, spans', size, height⟩ := here.exists_below (w.level + 1)
      rw [List.flatMap_cons, List.length_append, Shape.length_preOrder, size] at enough
      have sizes : ((queue ++ below).flatMap fun w => w.shape.preOrder).length ≤ steps := by
        rw [List.flatMap_append, List.length_append]
        omega
      have spans'' : ∀ v ∈ queue ++ below, t.Spans (some v.node) v.shape := fun v member =>
        (List.mem_append.mp member).elim (later v) fun inBelow => (spans' v inBelow).1
      -- a subtree goes as far down as its top and the subtrees below this go
      have lowest : w.level + w.shape.height ≤ bound + 1 ↔
          w.level ≤ bound ∧ ∀ v ∈ below, v.level + v.shape.height ≤ bound + 1 := by
        constructor
        · intro bounded
          have top : w.level ≤ bound := by
            have := here.height_pos
            omega
          refine ⟨top, fun v member => ?_⟩
          have := (height (bound - w.level)).mp (by omega) v member
          rw [(spans' v member).2]
          omega
        · rintro ⟨top, bounded⟩
          have := (height (bound - w.level)).mpr fun v member => by
            have := bounded v member
            rw [(spans' v member).2] at this
            omega
          omega
      rw [List.map_cons, deepest, children, ← List.map_append, ih spans'' sizes, Nat.max_le,
        List.forall_mem_append, List.forall_mem_cons, lowest]
      tauto

/-- The queue finds the number of levels below a node. -/
theorem depth_eq {i : Nat} {s : Shape Nat} (h : t.Spans (some i) s) (distinct : s.preOrder.Nodup) :
    t.depth i = s.height := by
  refine eq_of_forall_ge_iff fun bound => ?_
  let start : Waiting := ⟨i, 1, s⟩
  have waits : ∀ w ∈ [start], t.Spans (some w.node) w.shape := by simpa [start] using h
  have enough : ([start].flatMap fun w => w.shape.preOrder).length ≤ t.size := by
    simpa [start] using h.size_le distinct
  have found : t.depth i ≤ bound ↔
      0 ≤ bound ∧ ∀ w ∈ [start], w.level + w.shape.height ≤ bound + 1 :=
    deepest_le_iff waits enough
  simpa [start, Nat.add_comm 1] using found

theorem listsLevels {i : Nat} {s : Shape Nat} (h : t.Spans (some i) s)
    (distinct : s.preOrder.Nodup) (reachable : t.Reachable i) :
    t.ListsLevels i (t.levelsOf i) where
  mem_iff k j := by
    simp only [h.follow?_eq, ← Shape.mem_level_iff_path, h.getElem?_levelsOf distinct]
    constructor
    · rintro ⟨row, ⟨-, rfl⟩, member⟩
      exact member
    · exact fun member => ⟨_, ⟨Shape.lt_height_of_mem_level member, rfl⟩, member⟩
  ordered row member := by
    rw [h.levelsOf_eq distinct] at member
    obtain ⟨k, -, rfl⟩ := List.mem_map.mp member
    refine (s.pairwise_level k).imp fun {a b} order => ?_
    obtain ⟨start, top, l, r, here, path, sides⟩ := h.leftOf_iff.mp order
    cases here
    obtain ⟨root, isRoot, above⟩ := reachable
    exact ⟨top, l, r, ⟨root, isRoot, above.trans path⟩, sides⟩
  nonempty row member := by
    rw [h.levelsOf_eq distinct] at member
    obtain ⟨k, inRange, rfl⟩ := List.mem_map.mp member
    rw [Ne, Shape.level_eq_nil_iff]
    exact Nat.not_le_of_lt (List.mem_range.mp inRange)

end Spans

/-- Below a reachable node the links unfold into a shape without repetitions. -/
theorem WellFormed.exists_spans (wf : t.WellFormed) {i : Nat} (reachable : t.Reachable i) :
    ∃ s, t.Spans (some i) s ∧ s.preOrder.Nodup := by
  obtain ⟨s, spans⟩ := wf.spans_shape.at_item (wf.spans_shape.mem_preOrder_iff.mpr reachable)
  exact ⟨s, spans, wf.nodup_of_spans spans fun j same => Option.some.inj same ▸ reachable⟩

/-- A node has one level more than the child that has most of them. -/
theorem WellFormed.depth_eq_children (wf : t.WellFormed) {i : Nat} (reachable : t.Reachable i) :
    t.depth i = ((t.children i).map t.depth).foldr max 0 + 1 := by
  obtain ⟨s, spans, distinct⟩ := wf.exists_spans reachable
  obtain ⟨below, queued, spans', -, height⟩ := spans.exists_below 0
  have children : t.children i = below.map Waiting.node := by
    have := congrArg (List.map Prod.fst) queued
    simpa [Function.comp_def] using this
  have depths : ∀ w ∈ below, t.depth w.node = w.shape.height := by
    intro w member
    have inTree : t.Reachable w.node := by
      refine reachable.child (mem_children_iff.mp ?_)
      rw [children]
      exact List.mem_map_of_mem member
    exact (spans' w member).1.depth_eq
      (wf.nodup_of_spans (spans' w member).1 fun j same => Option.some.inj same ▸ inTree)
  rw [spans.depth_eq distinct, children, List.map_map,
    List.map_congr_left (f := t.depth ∘ Waiting.node) depths]
  refine eq_of_forall_ge_iff fun bound => ?_
  cases bound with
  | zero =>
    have := spans.height_pos
    omega
  | succ bound => rw [height, Nat.add_le_add_iff_right, foldr_max_le_iff, List.forall_mem_map]

/-- The walks over a well-formed tree follow the recursion over it, in whatever order its nodes are
stored: root, left, right and left, right, root over exactly the nodes in reach, and from each of
these row after row. The rows hold every node below once, and there are as many of them as the queue
finds, one more than below the child that has most of them. -/
theorem walks_follow_recursion (wf : t.WellFormed) :
    (∃ s, t.Spans t.root s ∧ t.preOrder = s.preOrder ∧ t.postOrder = s.postOrder ∧
      t.levels = (List.range s.height).map (Shape.level · s)) ∧
    (t.preOrder.Nodup ∧ t.postOrder.Perm t.preOrder ∧ ∀ i, i ∈ t.preOrder ↔ t.Reachable i) ∧
    ∀ i, t.Reachable i →
      (∃ s, t.Spans (some i) s ∧ t.levelsOf i = (List.range s.height).map (Shape.level · s) ∧
        (t.levelsOf i).flatten.Perm s.preOrder) ∧
      t.ListsLevels i (t.levelsOf i) ∧
      ((t.levelsOf i).flatten.Nodup ∧ ∀ j, j ∈ (t.levelsOf i).flatten ↔ t.Reaches i j) ∧
      t.depth i = (t.levelsOf i).length ∧
      t.depth i = ((t.children i).map t.depth).foldr max 0 + 1 := by
  obtain ⟨root, isRoot⟩ := wf.rooted
  have spans := wf.spans_shape
  refine ⟨⟨t.shape, spans, wf.preOrder_eq, wf.postOrder_eq, ?_⟩, ⟨?_, ?_, fun i => ?_⟩,
    fun i reachable => ?_⟩
  · rw [levels, isRoot]
    exact (isRoot ▸ spans).levelsOf_eq wf.nodup_shape
  · exact wf.preOrder_eq ▸ wf.nodup_shape
  · rw [wf.preOrder_eq, wf.postOrder_eq]
    exact t.shape.postOrder_perm
  · rw [wf.preOrder_eq]
    exact spans.mem_preOrder_iff
  · obtain ⟨s, below, distinct⟩ := wf.exists_spans reachable
    have rows := below.levelsOf_eq distinct
    have all : (t.levelsOf i).flatten.Perm s.preOrder :=
      rows ▸ s.flatten_levels_perm (Nat.le_refl _)
    refine ⟨⟨s, below, rows, all⟩, below.listsLevels distinct reachable,
      ⟨all.nodup_iff.mpr distinct, fun j => ?_⟩, ?_, wf.depth_eq_children reachable⟩
    · rw [all.mem_iff, below.mem_preOrder_iff]
      simp
    · rw [below.depth_eq distinct, rows, List.length_map, List.length_range]

/-- A tree with two single children, stored in no particular order beside a node that hangs below
itself. -/
def scattered : Tree Rat :=
  { nodes :=
      #[{ Node.new "nephew" with parent := some 4 },
        { Node.new "top" with left := some 4, right := some 3 },
        { Node.new "niece" with parent := some 3 },
        { Node.new "aunt" with left := some 2, parent := some 1 },
        { Node.new "uncle" with right := some 0, parent := some 1 },
        { Node.new "stray" with left := some 5, parent := some 5 }]
    root := some 1 }

theorem spans_scattered :
    scattered.Spans (some 1) (.node 1 (.node 4 .empty (.leaf 0)) (.node 3 (.leaf 2) .empty)) :=
  .node rfl (.node rfl .empty (.node rfl .empty .empty))
    (.node rfl (.node rfl .empty .empty) .empty)

theorem walks_follow_recursion_scattered : scattered.WellFormed ∧
    scattered.preOrder = [1, 4, 0, 3, 2] ∧ scattered.postOrder = [0, 4, 2, 3, 1] ∧
    scattered.levelsOf 1 = [[1], [4, 3], [0, 2]] ∧ scattered.depth 1 = 3 ∧
    scattered.depth 4 = 2 := by
  have wf : scattered.WellFormed :=
    spans_scattered.wellFormed (Option.some_ne_none 1) (by decide)
  obtain ⟨⟨s, spans, down, up, rows⟩, -, below⟩ := walks_follow_recursion wf
  rw [spans.unique spans_scattered] at down up rows
  have uncle : scattered.Reachable 4 := ⟨1, rfl, .single ⟨.left, _, rfl, rfl⟩⟩
  obtain ⟨-, -, -, -, deepest⟩ := below 1 ⟨1, rfl, .refl⟩
  obtain ⟨-, -, -, -, deepest'⟩ := below 4 uncle
  exact ⟨wf, down, up, rows, deepest, deepest'⟩

end Tree

end TreeDiagram
