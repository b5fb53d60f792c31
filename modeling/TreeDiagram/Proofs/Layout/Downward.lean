import TreeDiagram.Proofs.Layout.Climbing
/-!
# The third pass

Going down through a subtree places its nodes as its arrangement says, from the shift that its
parent has come to. The tree is changed at the nodes that are placed, and the extent is that of the
nodes placed so far.
-/

namespace TreeDiagram

variable {K : Type}

namespace Placing

/-- The node at a position among those placed. -/
def itemAt? (s : Placing K) (p : Nat) : Option Nat := (s.nodes[p]?).map PlacedNode.node

/-- A node is found as the parent if its position is. -/
theorem parent_of_names {s : Placing K} {position parent : Option Nat}
    (names : position.map s.itemAt? = parent.map some) :
    (position.bind fun p => s.nodes[p]?).map PlacedNode.node = parent := by
  cases position with
  | none =>
    cases parent with
    | none => rfl
    | some q => cases names
  | some p =>
    cases parent with
    | none => cases names
    | some q => exact Option.some.inj names

end Placing

variable [Scalar K]

/-- The tree with the place of a node written into it. -/
def Tree.writeBack (t : Tree K) (n : PlacedNode K) : Tree K :=
  t.modify n.node (Node.settledAt n.x n.shift)

namespace Placing

/-- What is recorded fits the nodes that are placed; `t` is the tree as it was before. -/
structure Sound (t : Tree K) (s : Placing K) : Prop where
  tree : s.tree = s.nodes.foldl Tree.writeBack t
  minX : s.minX = Layout.minX s.nodes
  maxX : s.maxX = Layout.maxX s.nodes
  maxY : s.maxY = Layout.maxY s.nodes
  /-- A placed node has the height of the stored one, and its parent's position leads to the parent.
  -/
  stored : ∀ n ∈ s.nodes, ∃ m, t.node? n.node = some m ∧ m.y = n.y ∧
    n.parent.map s.itemAt? = m.parent.map some
  positions : ∀ i p, s.position? i = some p → s.itemAt? p = some i
  size : s.positions.size = t.size

theorem sound_start (t : Tree K) : Sound t (.start t) where
  tree := rfl
  minX := rfl
  maxX := rfl
  maxY := rfl
  stored := by simp [start]
  positions i p found := by
    simp only [start, position?, Array.getElem?_replicate] at found
    split at found <;> cases found
  size := Array.size_replicate

variable {t : Tree K} {s : Placing K} {levels : Array Nat} {i : Nat} {n : Node K}

theorem next_eq (here : s.tree.node? i = some n) :
    s.next levels i =
      { tree := s.tree.modify i (Node.settledAt (n.x + s.totalShift n) (s.totalShift n))
        minX := Scalar.smaller s.minX (n.x + s.totalShift n)
        maxX := Scalar.larger s.maxX (n.x + s.totalShift n)
        maxY := Scalar.larger s.maxY n.y
        positions := s.positions.setIfInBounds i (some s.nodes.size)
        nodes := s.nodes.push
          { node := i, label := n.label, depth := levels.getD i 0, x := n.x + s.totalShift n,
            y := n.y, shift := s.totalShift n, parent := n.parent.bind s.position? } } := by
  simp only [next, here]

theorem position?_next (levels : Array Nat) (here : s.tree.node? i = some n)
    (inside : i < s.positions.size) (j : Nat) :
    (s.next levels i).position? j = if i = j then some s.nodes.size else s.position? j := by
  rw [next_eq here]
  simp only [position?, Array.getElem?_setIfInBounds]
  split <;> rfl

theorem node?_next_of_ne (levels : Array Nat) (here : s.tree.node? i = some n) {j : Nat}
    (other : i ≠ j) :
    (s.next levels i).tree.node? j = s.tree.node? j := by
  rw [next_eq here, Tree.node?_modify, if_neg other]

theorem node?_next_self (levels : Array Nat) (here : s.tree.node? i = some n) :
    (s.next levels i).tree.node? i =
      some (n.settledAt (n.x + s.totalShift n) (s.totalShift n)) := by
  rw [next_eq here, Tree.node?_modify, if_pos rfl, here, Option.map_some]

/-- Nodes that are placed keep their positions. -/
theorem itemAt?_next (here : s.tree.node? i = some n) {p j : Nat} (found : s.itemAt? p = some j) :
    (s.next levels i).itemAt? p = some j := by
  obtain ⟨m, at_, item⟩ := Option.map_eq_some_iff.mp found
  have inside := (Array.getElem?_eq_some_iff.mp at_).1
  rw [next_eq here, itemAt?, Array.getElem?_push_lt inside, ← Array.getElem?_eq_getElem, at_]
  exact congrArg some item

theorem map_itemAt?_next (here : s.tree.node? i = some n) {position parent : Option Nat}
    (names : position.map s.itemAt? = parent.map some) :
    position.map (s.next levels i).itemAt? = parent.map some := by
  cases position with
  | none => exact names
  | some p =>
    cases parent with
    | none => cases names
    | some q => exact congrArg some (itemAt?_next here (Option.some.inj names))

namespace Sound

theorem next (h : Sound t s) (levels : Array Nat) (stored : t.node? i = some n)
    (here : s.tree.node? i = some n)
    (parentPlaced : ∀ q, n.parent = some q → s.position? q ≠ none) : Sound t (s.next levels i) := by
  have inside : i < s.positions.size := h.size ▸ (Array.getElem?_eq_some_iff.mp stored).1
  have last : (s.next levels i).itemAt? s.nodes.size = some i := by
    rw [next_eq here, itemAt?, Array.getElem?_push_size]
    rfl
  constructor
  · rw [next_eq here, Array.foldl_push, ← h.tree]
    rfl
  · rw [next_eq here, Layout.minX, Array.foldl_push, ← Layout.minX, ← h.minX]
  · rw [next_eq here, Layout.maxX, Array.foldl_push, ← Layout.maxX, ← h.maxX]
  · rw [next_eq here, Layout.maxY, Array.foldl_push, ← Layout.maxY, ← h.maxY]
  · intro m member
    rw [next_eq here, Array.mem_push] at member
    rcases member with member | rfl
    · obtain ⟨m', stored', height, names⟩ := h.stored m member
      exact ⟨m', stored', height, map_itemAt?_next here names⟩
    · refine ⟨n, stored, rfl, map_itemAt?_next here ?_⟩
      cases parent : n.parent with
      | none => rfl
      | some q =>
        obtain ⟨p, position⟩ := Option.ne_none_iff_exists'.mp (parentPlaced q parent)
        simp only [Option.bind_some, position, Option.map_some, h.positions q p position]
  · intro j p found
    rw [position?_next levels here inside] at found
    split at found
    · next same =>
      cases found
      rw [last, same]
    · exact itemAt?_next here (h.positions j p found)
  · rw [next_eq here, Array.size_setIfInBounds]
    exact h.size

end Sound

theorem totalShift_of_parent {p : Node K} {q : Nat} (parent : n.parent = some q)
    (above : s.tree.node? q = some p) : s.totalShift n = n.shift + p.shift := by
  simp only [totalShift, parent, Option.bind_some, above]

/-- The nodes of a subtree are placed behind those placed before, and nothing is recorded for
others. -/
structure Placed (t : Tree K) (v : K) (shape : Shape Nat) (shift : K) (depth : Nat)
    (parent : Option Nat) (s s' : Placing K) : Prop where
  sound : Sound t s'
  nodes : s'.nodes = Layout.place t.labelAt v (t.arrangement shape) shift depth parent s.nodes
  tree : ∀ j, j ∉ shape.preOrder → s'.tree.node? j = s.tree.node? j
  positions : ∀ j, j ∉ shape.preOrder → s'.position? j = s.position? j

/-- The nodes of a subtree stand on the levels from `depth` downwards. -/
def OnLevels (t : Tree K) (v : K) (levels : Array Nat) (shape : Shape Nat) (depth : Nat) : Prop :=
  ∀ k j m, j ∈ shape.level k → t.node? j = some m →
    m.y = v * ((depth + k : Nat) : K) ∧ levels.getD j 0 = depth + k

/-- A node is about to be placed below a parent that is placed. -/
structure Inherits (s : Placing K) (n : Node K) (shift : K) (parent : Option Nat) : Prop where
  total : s.totalShift n = n.shift + shift
  position : n.parent.bind s.position? = parent
  placed : ∀ q, n.parent = some q → s.position? q ≠ none

/-- A child is about to be placed below a parent that is placed. -/
theorem inherits_child {p : Node K} {q here : Nat} (above : s.tree.node? q = some p)
    (position : s.position? q = some here) (child : n.parent = some q) :
    s.Inherits n p.shift (some here) := by
  refine ⟨totalShift_of_parent child above, ?_, ?_⟩
  · rw [child, Option.bind_some, position]
  · intro q' parent
    cases child.symm.trans parent
    rw [position]
    exact Option.some_ne_none here

/-- What is placed for a node. -/
theorem nodes_next {v shift : K} {parent : Option Nat} {depth : Nat} (stored : t.node? i = some n)
    (here : s.tree.node? i = some n) (own : s.Inherits n shift parent)
    (height : n.y = v * (depth : K)) (level : levels.getD i 0 = depth) :
    (s.next levels i).nodes = s.nodes.push
      { node := i, label := t.labelAt i, depth, x := t.xAt i + (t.shiftAt i + shift),
        y := v * (depth : K), shift := t.shiftAt i + shift, parent } := by
  rw [next_eq here, own.total, own.position, height, level, Tree.xAt_of_node? stored,
    Tree.shiftAt_of_node? stored, Tree.labelAt, stored]
  rfl

/-- Going down through a subtree places it as its arrangement says. -/
theorem foldl_next {v : K} {above link : Option Nat} {shape : Shape Nat}
    (threaded : t.Threaded above link shape) (distinct : shape.preOrder.Nodup) {depth : Nat}
    (leveled : OnLevels t v levels shape depth) {shift : K} {parent : Option Nat}
    (sound : Sound t s)
    (untouched : ∀ j ∈ shape.preOrder, s.tree.node? j = t.node? j)
    (inherits : ∀ i m, link = some i → t.node? i = some m → s.Inherits m shift parent) :
    Placed t v shape shift depth parent s (shape.preOrder.foldl (next levels) s) := by
  induction shape generalizing above link depth shift parent s with
  | empty => exact ⟨sound, rfl, fun _ _ => rfl, fun _ _ => rfl⟩
  | node i l r ihl ihr =>
    obtain ⟨apart, disjoint⟩ := List.nodup_cons.mp distinct
    rw [List.mem_append, not_or] at apart
    obtain ⟨distinctl, distinctr, disjoint⟩ := List.nodup_append'.mp disjoint
    simp only [Shape.preOrder, List.mem_cons, List.mem_append] at untouched
    cases threaded with
    | @node _ _ n _ _ stored back threadedl threadedr =>
      have here : s.tree.node? i = some n := (untouched i (.inl rfl)).trans stored
      have own := inherits i n rfl stored
      have sound₁ := sound.next levels stored here own.placed
      have inside : i < s.positions.size := sound.size ▸ (Array.getElem?_eq_some_iff.mp stored).1
      obtain ⟨height, level⟩ := leveled 0 i n (by simp [Shape.level]) stored
      have nodes₁ := nodes_next stored here own height level
      have tree₁ := node?_next_self levels here
      have position₁ := position?_next levels here inside
      have others₁ (j : Nat) (other : i ≠ j) := node?_next_of_ne levels here other
      -- both children find their parent placed, with the shift that they inherit
      have below {s' : Placing K} (tree : s'.tree.node? i = (s.next levels i).tree.node? i)
          (position : s'.position? i = (s.next levels i).position? i) {m : Node K}
          (child : m.parent = some i) :
          s'.Inherits m (t.shiftAt i + shift) (some s.nodes.size) := by
        rw [position₁, if_pos rfl] at position
        rw [Tree.shiftAt_of_node? stored, ← own.total]
        exact inherits_child (tree.trans tree₁) position child
      have lower {shape : Shape Nat}
          (inside : ∀ k j, j ∈ shape.level k → j ∈ (Shape.node i l r).level (k + 1)) :
          OnLevels t v levels shape (depth + 1) := by
        intro k j m member found
        rw [show depth + 1 + k = depth + (k + 1) by omega]
        exact leveled (k + 1) j m (inside k j member) found
      rw [Shape.preOrder, List.foldl_cons, List.foldl_append]
      generalize s.next levels i = s₁ at *
      have notTop {shape : Shape Nat} (apart : i ∉ shape.preOrder) {j : Nat}
          (member : j ∈ shape.preOrder) : i ≠ j := by
        rintro rfl
        exact apart member
      have left := ihl threadedl distinctl
        (lower fun k j member => List.mem_append_left _ member) sound₁
        (fun j member => (others₁ j (notTop apart.1 member)).trans
          (untouched j (.inr (.inl member))))
        (fun c m link found => below rfl rfl ((link ▸ threadedl).parent_eq found))
      generalize l.preOrder.foldl (next levels) s₁ = s₂ at left ⊢
      have right := ihr threadedr distinctr
        (lower fun k j member => List.mem_append_right _ member) left.sound
        (fun j member => ((left.tree j fun inLeft => disjoint inLeft member).trans
          (others₁ j (notTop apart.2 member))).trans (untouched j (.inr (.inr member))))
        (fun c m link found => below (left.tree i apart.1) (left.positions i apart.1)
          ((link ▸ threadedr).parent_eq found))
      generalize r.preOrder.foldl (next levels) s₂ = s₃ at right ⊢
      refine ⟨right.sound, ?_, fun j outside => ?_, fun j outside => ?_⟩
      · rw [right.nodes, left.nodes, nodes₁]
        rfl
      · simp only [Shape.preOrder, List.mem_cons, List.mem_append, not_or] at outside
        rw [right.tree j outside.2.2, left.tree j outside.2.1, others₁ j (Ne.symm outside.1)]
      · simp only [Shape.preOrder, List.mem_cons, List.mem_append, not_or] at outside
        rw [right.positions j outside.2.2, left.positions j outside.2.1, position₁,
          if_neg (Ne.symm outside.1)]

end Placing

end TreeDiagram
