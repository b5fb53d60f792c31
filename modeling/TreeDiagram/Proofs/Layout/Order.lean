import TreeDiagram.Proofs.Layout.Rerun
import TreeDiagram.Proofs.Layout.Translation
/-!
# The order of the placed nodes

A layout lists the nodes of its tree in root, left, right order. A node names its parent by the
parent's position in the list, which is before its own, and stands one level below it. All of this
holds whatever numbers the tree is laid out with, and in whatever order its nodes are stored.
-/

namespace TreeDiagram

namespace Layout

variable {K : Type} {t : Tree K}

/-- Where a placed node at a position of the list hangs: at the link that its subtree is reached by,
then it is the first of its subtree; or from a node that is listed before it. -/
inductive Hung (t : Tree K) (link : Option Nat) (depth : Nat) (parent : Option Nat) (start : Nat)
    (nodes : Array (PlacedNode K)) (k : Nat) (n : PlacedNode K) : Prop
  | top (first : k = start) (reached : link = some n.node) (level : n.depth = depth)
      (named : n.parent = parent)
  | child {p : Nat} {m : PlacedNode K} (named : n.parent = some p) (before : p < k)
      (listed : nodes[p]? = some m) (hangs : t.IsParent m.node n.node)
      (level : n.depth = m.depth + 1)

/-- The top of a subtree hangs from its parent as soon as the parent is listed with it. -/
theorem Hung.child_of_top {link link' : Option Nat} {depth start start' k : Nat}
    {parent : Option Nat} {nodes nodes' : Array (PlacedNode K)} {n m : PlacedNode K} {here : Nat}
    (hung : Hung t link (depth + 1) (some here) start nodes k n)
    (kept : ∀ (p : Nat) q, nodes[p]? = some q → nodes'[p]? = some q)
    (listed : nodes'[here]? = some m) (before : here < start) (level : m.depth = depth)
    (hangs : ∀ c, link = some c → t.IsParent m.node c) :
    Hung t link' depth parent start' nodes' k n := by
  cases hung with
  | top first reached level' named =>
    exact .child named (first ▸ before) listed (hangs _ reached) (by rw [level', level])
  | child named before listed hangs level => exact .child named before (kept _ _ listed) hangs level

variable [Scalar K]

/-- What placing a subtree does to the list: it keeps what is there, and every node that it adds has
its own label, stands at the height of its level and hangs where the tree has it. -/
structure Grown (t : Tree K) (v : K) (link : Option Nat) (depth : Nat) (parent : Option Nat)
    (before after : Array (PlacedNode K)) : Prop where
  kept : ∀ (k : Nat) n, before[k]? = some n → after[k]? = some n
  added : ∀ (k : Nat) n, before.size ≤ k → after[k]? = some n →
    n.label = t.labelAt n.node ∧ n.y = v * (n.depth : K) ∧
      Hung t link depth parent before.size after k n

theorem Grown.size_le {v : K} {link : Option Nat} {depth : Nat} {parent : Option Nat}
    {before after : Array (PlacedNode K)} (grown : Grown t v link depth parent before after) :
    before.size ≤ after.size := by
  by_contra shrunk
  have inside : after.size < before.size := Nat.lt_of_not_le shrunk
  have found := grown.kept _ _ (Array.getElem?_eq_getElem inside)
  exact absurd (Array.getElem?_eq_some_iff.mp found).1 (Nat.lt_irrefl _)

/-- An entry of a list that has grown twice was there before, or was added by the first or the
second growth. -/
theorem Grown.entry {v : K} {link link' : Option Nat} {depth depth' : Nat}
    {parent parent' : Option Nat} {first second third : Array (PlacedNode K)}
    (left : Grown t v link depth parent first second)
    (right : Grown t v link' depth' parent' second third) {k : Nat} {n : PlacedNode K}
    (found : third[k]? = some n) :
    first[k]? = some n ∨ first.size ≤ k ∧ second[k]? = some n ∨ second.size ≤ k := by
  by_cases early : k < second.size
  · have here := right.kept _ _ (Array.getElem?_eq_getElem early)
    rw [found, Option.some.injEq] at here
    by_cases earlier : k < first.size
    · have here' := left.kept _ _ (Array.getElem?_eq_getElem earlier)
      rw [Array.getElem?_eq_getElem early, ← here, Option.some.injEq] at here'
      exact .inl (by rw [Array.getElem?_eq_getElem earlier, here'])
    · exact .inr (.inl ⟨Nat.le_of_not_lt earlier, by rw [Array.getElem?_eq_getElem early, here]⟩)
  · exact .inr (.inr (Nat.le_of_not_lt early))

/-- A node that is listed before what is below it on its left and on its right. -/
theorem Grown.node {v : K} {depth i : Nat} {parent : Option Nat}
    {before second third : Array (PlacedNode K)} {n : PlacedNode K} {stored : Node K}
    (found : t.node? i = some stored) (item : n.node = i) (label : n.label = t.labelAt n.node)
    (height : n.y = v * (n.depth : K)) (level : n.depth = depth) (named : n.parent = parent)
    (left : Grown t v stored.left (depth + 1) (some before.size) (before.push n) second)
    (right : Grown t v stored.right (depth + 1) (some before.size) second third) :
    Grown t v (some i) depth parent before third := by
  subst item
  have top : (before.push n)[before.size]? = some n := Array.getElem?_push_size
  have sizes : (before.push n).size = before.size + 1 := Array.size_push n
  have topListed := right.kept _ _ (left.kept _ _ top)
  have hangs (side : Side) (c : Nat) (link : stored.link side = some c) : t.IsParent n.node c :=
    ⟨side, stored, found, link⟩
  refine ⟨fun k m old => ?_, fun k m outside entry => ?_⟩
  · have inside := (Array.getElem?_eq_some_iff.mp old).1
    refine right.kept _ _ (left.kept _ _ ?_)
    rw [Array.getElem?_push_lt inside, ← old, Array.getElem?_eq_getElem inside]
  · rcases left.entry right entry with old | ⟨behind, added⟩ | behind
    · -- behind what was there before, only the top was listed first
      have inside := (Array.getElem?_eq_some_iff.mp old).1
      obtain rfl : k = before.size := by omega
      cases top.symm.trans old
      exact ⟨label, height, .top rfl rfl level named⟩
    · obtain ⟨label, height, hung⟩ := left.added k m behind added
      exact ⟨label, height, hung.child_of_top right.kept topListed (by omega) level (hangs .left)⟩
    · obtain ⟨label, height, hung⟩ := right.added k m behind entry
      have later := left.size_le
      exact ⟨label, height,
        hung.child_of_top (fun _ _ => id) topListed (by omega) level (hangs .right)⟩

/-- Placing an arrangement of what is found by following a link. -/
theorem grown_place {v : K} {a : Arrangement K} {link : Option Nat} (shift : K) (depth : Nat)
    (parent : Option Nat) (before : Array (PlacedNode K))
    (spans : t.Spans link (a.map Spot.node)) :
    Grown t v link depth parent before (place t.labelAt v a shift depth parent before) := by
  induction a generalizing link shift depth parent before with
  | empty =>
    cases spans
    refine ⟨fun _ _ => id, fun k n outside entry => ?_⟩
    exact absurd (Array.getElem?_eq_some_iff.mp entry).1 (Nat.not_lt_of_le outside)
  | node s l r ihl ihr =>
    cases spans with
    | node found left right =>
      rw [place]
      refine .node found ?_ ?_ ?_ ?_ ?_ (ihl _ _ _ _ left) (ihr _ _ _ _ right)
      all_goals rfl

/-- A layout lists the nodes of a tree in root, left, right order, each of them once and with its
own label. The root comes first; every other node names the position of its parent, which is before
its own, and is one level below it. -/
structure Lists (layout : Layout K) (t : Tree K) : Prop where
  order : ∃ s, t.Spans t.root s ∧ layout.nodes.toList.map PlacedNode.node = s.preOrder
  distinct : (layout.nodes.toList.map PlacedNode.node).Nodup
  complete : ∀ i, t.Reachable i ↔ ∃ n ∈ layout.nodes, n.node = i
  label : ∀ n ∈ layout.nodes, ∃ stored, t.node? n.node = some stored ∧ n.label = stored.label
  height : ∀ n ∈ layout.nodes, n.y = layout.verticalSpacing * (n.depth : K)
  first : ∃ n, layout.nodes[0]? = some n ∧ t.root = some n.node ∧ n.parent = none ∧ n.depth = 0
  later : ∀ k n, 0 < k → layout.nodes[k]? = some n → ∃ p m, n.parent = some p ∧ p < k ∧
    layout.nodes[p]? = some m ∧ t.IsParent m.node n.node ∧ n.depth = m.depth + 1

variable {radius : K} {style : Style} {factors : LayoutFactors K} {layout : Layout K}

theorem grown_nodes (wf : t.WellFormed) (laid : compute t radius style factors = .ok layout) :
    Grown t layout.verticalSpacing t.root 0 none #[] layout.nodes := by
  rw [(madeFrom_of_compute laid).nodes]
  refine grown_place 0.0 0 none #[] ?_
  rw [Arrangement.map_node_ofShape]
  exact wf.spans_shape

theorem lists_of_compute (wf : t.WellFormed)
    (laid : compute t radius style factors = .ok layout) : layout.Lists t := by
  have grown := grown_nodes wf laid
  have items := map_node_of_compute laid
  have complete (i : Nat) : t.Reachable i ↔ ∃ n ∈ layout.nodes, n.node = i := by
    have member := wf.spans_shape.mem_preOrder_iff (j := i)
    rw [← items, List.mem_map] at member
    simp only [Array.mem_toList_iff] at member
    exact member.symm
  have position {n : PlacedNode K} (member : n ∈ layout.nodes) : ∃ k, layout.nodes[k]? = some n :=
    Array.mem_iff_getElem?.mp member
  obtain ⟨root, isRoot⟩ := wf.rooted
  obtain ⟨n₀, member₀, -⟩ := (complete root).mp ⟨root, isRoot, .refl⟩
  have some_ : 0 < layout.nodes.size := Array.size_pos_of_mem member₀
  refine ⟨⟨t.shape, wf.spans_shape, items⟩, nodup_nodes wf laid, complete, fun n member => ?_,
    fun n member => ?_, ?_, fun k n behind found => ?_⟩
  · obtain ⟨k, found⟩ := position member
    obtain ⟨stored, here⟩ := wf.stored ((complete n.node).mpr ⟨n, member, rfl⟩)
    refine ⟨stored, here, ?_⟩
    rw [(grown.added k n (Nat.zero_le k) found).1, Tree.labelAt, here]
    rfl
  · obtain ⟨k, found⟩ := position member
    exact (grown.added k n (Nat.zero_le k) found).2.1
  · have found := Array.getElem?_eq_getElem some_
    refine ⟨_, found, ?_⟩
    cases (grown.added 0 _ (Nat.zero_le 0) found).2.2 with
    | top first reached level named => exact ⟨reached, named, level⟩
    | child named before => exact absurd before (Nat.not_lt_zero _)
  · cases (grown.added k n (Nat.zero_le k) found).2.2 with
    | top first => exact absurd first (Nat.ne_of_gt behind)
    | child named before listed hangs level => exact ⟨_, _, named, before, listed, hangs, level⟩

/-- The layout of a well-formed tree lists the tree, and the passes in place find the very same
list: the levels of the first pass, the parents that it names and the positions of the third pass
agree. -/
theorem nodes_list_tree (wf : t.WellFormed)
    (laid : compute t radius style factors = .ok layout) :
    layout.Lists t ∧ ((0.0 : K) + 0.0 = 0.0 →
      (t.layOutInPlace radius style factors).1 = .ok layout) := by
  refine ⟨lists_of_compute wf laid, fun zero => ?_⟩
  rw [Tree.layOutInPlace_of_ok wf zero laid]

end Layout

/-- A tree that is stored from the bottom upwards, with a node that hangs nowhere. -/
def Tree.upended : Tree Rat :=
  { nodes :=
      #[{ Node.new "lowest" with parent := some 1 },
        { Node.new "left" with right := some 0, parent := some 2 },
        { Node.new "top" with left := some 1, right := some 3 },
        { Node.new "right" with parent := some 2 },
        Node.new "stray"]
    root := some 2 }

theorem Tree.spans_upended :
    Tree.upended.Spans (some 2) (.node 2 (.node 1 .empty (.leaf 0)) (.leaf 3)) :=
  .node rfl (.node rfl .empty (.node rfl .empty .empty)) (.node rfl .empty .empty)

namespace Layout

theorem nodes_list_tree_upended : Tree.upended.WellFormed ∧
    ∃ layout, compute Tree.upended 10 {} {} = .ok layout ∧ layout.Lists Tree.upended ∧
      layout.nodes.toList.map PlacedNode.node = [2, 1, 0, 3] ∧
      (Tree.upended.layOutInPlace 10 {} {}).1 = .ok layout := by
  have spans := Tree.spans_upended
  have wf : Tree.upended.WellFormed := spans.wellFormed (Option.some_ne_none 2) (by decide)
  obtain ⟨layout, laid, -⟩ := exists_compute Tree.upended compute_cousins (Option.some_ne_none 2)
  obtain ⟨lists, inPlace⟩ := nodes_list_tree wf laid
  obtain ⟨s, found, items⟩ := lists.order
  refine ⟨wf, layout, laid, lists, ?_, inPlace (by norm_num)⟩
  rw [items, found.unique spans]
  rfl

end Layout

end TreeDiagram
