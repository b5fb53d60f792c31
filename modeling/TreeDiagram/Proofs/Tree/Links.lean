import Mathlib.Data.List.Perm.Subperm
import Mathlib.Logic.Relation
import TreeDiagram.Proofs.Tree.Items
import TreeDiagram.Tree.Basic
/-!
# Well-formed stored trees

A stored tree is well formed if, as far as its links are followed from the root, each of them leads
to a node, no node hangs from two places, and none hangs below itself. Exactly then its links unfold
into a shape that has every place at most once, and that is the shape that `Tree.shape` finds.
-/

namespace TreeDiagram

/-- The child of a node on a side. -/
def Node.link {K : Type} (n : Node K) : Side → Option Nat
  | .left => n.left
  | .right => n.right

namespace Tree

variable {K : Type}

/-- A node hangs from another one on a side. -/
def Hangs (t : Tree K) (parent : Nat) (side : Side) (child : Nat) : Prop :=
  ∃ n, t.node? parent = some n ∧ n.link side = some child

/-- A node hangs from another one. -/
def IsParent (t : Tree K) (parent child : Nat) : Prop :=
  ∃ side, t.Hangs parent side child

/-- The second node is the first one or hangs, over any number of nodes between them, below it. -/
def Reaches (t : Tree K) : Nat → Nat → Prop :=
  Relation.ReflTransGen t.IsParent

/-- The node is the root or hangs below it. -/
def Reachable (t : Tree K) (i : Nat) : Prop :=
  ∃ root, t.root = some root ∧ t.Reaches root i

/-- There is a root, and below it every node has at most two children, one parent and no way back to
itself. -/
structure WellFormed (t : Tree K) : Prop where
  rooted : ∃ root, t.root = some root
  stored : ∀ {i}, t.Reachable i → ∃ n, t.node? i = some n
  oneParent : ∀ {i j side side' child}, t.Reachable i → t.Reachable j →
    t.Hangs i side child → t.Hangs j side' child → i = j ∧ side = side'
  acyclic : ∀ {i}, t.Reachable i → ¬ Relation.TransGen t.IsParent i i

/-- The first node is in the left and the second in the right subtree of a node of the tree. -/
def LeftOf (t : Tree K) (i j : Nat) : Prop :=
  ∃ top l r, t.Reachable top ∧ t.Hangs top .left l ∧ t.Hangs top .right r ∧
    t.Reaches l i ∧ t.Reaches r j

/-- What is found by following a link, as a shape. -/
inductive Spans (t : Tree K) : Option Nat → Shape Nat → Prop
  | empty : Spans t none .empty
  | node {i : Nat} {n : Node K} {l r : Shape Nat} (stored : t.node? i = some n)
      (left : Spans t n.left l) (right : Spans t n.right r) : Spans t (some i) (.node i l r)

theorem Reachable.child {t : Tree K} {i c : Nat} (h : t.Reachable i) (hangs : t.IsParent i c) :
    t.Reachable c := by
  obtain ⟨root, isRoot, path⟩ := h
  exact ⟨root, isRoot, path.tail hangs⟩

theorem Hangs.link_eq {t : Tree K} {i c : Nat} {side : Side} {n : Node K}
    (hangs : t.Hangs i side c) (stored : t.node? i = some n) : n.link side = some c := by
  obtain ⟨m, stored', link⟩ := hangs
  cases stored.symm.trans stored'
  exact link

namespace Spans

variable {t : Tree K}

theorem unique {link : Option Nat} {s s' : Shape Nat} (h : t.Spans link s)
    (h' : t.Spans link s') : s = s' := by
  induction h generalizing s' with
  | empty => cases h'; rfl
  | node stored _ _ ihl ihr =>
    cases h' with
    | node stored' left right =>
      cases stored.symm.trans stored'
      rw [ihl left, ihr right]

/-- The items are the nodes that are reached by way of the link. -/
theorem mem_preOrder_iff {link : Option Nat} {s : Shape Nat} {j : Nat} (h : t.Spans link s) :
    j ∈ s.preOrder ↔ ∃ i, link = some i ∧ t.Reaches i j := by
  induction h with
  | empty => simp [Shape.preOrder]
  | @node i n l r stored left right ihl ihr =>
    simp only [Shape.preOrder, List.mem_cons, List.mem_append, ihl, ihr, Option.some.injEq,
      exists_eq_left']
    constructor
    · rintro (rfl | ⟨c, link, path⟩ | ⟨c, link, path⟩)
      · exact .refl
      · exact .head ⟨.left, n, stored, link⟩ path
      · exact .head ⟨.right, n, stored, link⟩ path
    · intro path
      rcases Relation.ReflTransGen.cases_head path with rfl | ⟨c, ⟨side, hangs⟩, path⟩
      · exact .inl rfl
      · have link := hangs.link_eq stored
        cases side with
        | left => exact .inr (.inl ⟨c, link, path⟩)
        | right => exact .inr (.inr ⟨c, link, path⟩)

/-- Below a node with a shape a child has a smaller one. -/
theorem child {i c : Nat} {s : Shape Nat} (h : t.Spans (some i) s) (hangs : t.IsParent i c) :
    ∃ s', t.Spans (some c) s' ∧ s'.size < s.size := by
  obtain ⟨side, hangs⟩ := hangs
  cases h with
  | @node _ n l r stored left right =>
    have link := hangs.link_eq stored
    have sizes : l.size < (Shape.node i l r).size ∧ r.size < (Shape.node i l r).size := by
      simp only [Shape.size]
      omega
    cases side with
    | left => exact ⟨l, (show n.left = some c from link) ▸ left, sizes.1⟩
    | right => exact ⟨r, (show n.right = some c from link) ▸ right, sizes.2⟩

/-- Where links unfold into a shape no node hangs below itself. -/
theorem acyclic {i : Nat} {s : Shape Nat} (h : t.Spans (some i) s) :
    ¬ Relation.TransGen t.IsParent i i := by
  have smaller {j : Nat} (path : Relation.TransGen t.IsParent i j) :
      ∃ s', t.Spans (some j) s' ∧ s'.size < s.size := by
    induction path with
    | single hangs => exact h.child hangs
    | tail _ hangs ih =>
      obtain ⟨s', spans, less⟩ := ih
      obtain ⟨s'', spans', less'⟩ := spans.child hangs
      exact ⟨s'', spans', Nat.lt_trans less' less⟩
  intro cycle
  obtain ⟨s', spans, less⟩ := smaller cycle
  rw [h.unique spans] at less
  exact Nat.lt_irrefl _ less

/-- A node of a shape without repetitions has one parent in it. -/
theorem oneParent {link : Option Nat} {s : Shape Nat} (h : t.Spans link s)
    (distinct : s.preOrder.Nodup) {i j c : Nat} {side side' : Side} (hi : i ∈ s.preOrder)
    (hj : j ∈ s.preOrder) (hangs : t.Hangs i side c) (hangs' : t.Hangs j side' c) :
    i = j ∧ side = side' := by
  induction h with
  | empty => simp [Shape.preOrder] at hi
  | @node top n l r stored left right ihl ihr =>
    let branch : Side → Shape Nat := fun b => match b with | .left => l | .right => r
    have spans (b : Side) : t.Spans (n.link b) (branch b) := by
      cases b
      · exact left
      · exact right
    -- the child is in one branch; its parent is the top, or is in that branch as well
    have placed {i : Nat} {side : Side} (hi : i ∈ (Shape.node top l r).preOrder)
        (hangs : t.Hangs i side c) : ∃ b, c ∈ (branch b).preOrder ∧
          (i = top ∧ side = b ∧ n.link b = some c ∨
            i ∈ (branch b).preOrder ∧ n.link b ≠ some c) := by
      have inside {b : Side} (hi : i ∈ (branch b).preOrder) : c ∈ (branch b).preOrder ∧
          (i = top ∧ side = b ∧ n.link b = some c ∨
            i ∈ (branch b).preOrder ∧ n.link b ≠ some c) := by
        obtain ⟨d, link, path⟩ := (spans b).mem_preOrder_iff.mp hi
        refine ⟨(spans b).mem_preOrder_iff.mpr ⟨d, link, path.tail ⟨side, hangs⟩⟩, .inr ⟨hi, ?_⟩⟩
        intro here
        cases link.symm.trans here
        exact (link ▸ spans b).acyclic (.tail' path ⟨side, hangs⟩)
      simp only [Shape.preOrder, List.mem_cons, List.mem_append] at hi
      rcases hi with rfl | hi | hi
      · have here := hangs.link_eq stored
        exact ⟨side, (spans side).mem_preOrder_iff.mpr ⟨c, here, .refl⟩, .inl ⟨rfl, rfl, here⟩⟩
      · exact ⟨.left, inside (b := .left) hi⟩
      · exact ⟨.right, inside (b := .right) hi⟩
    simp only [Shape.preOrder, List.nodup_cons, List.nodup_append'] at distinct
    obtain ⟨-, distinctl, distinctr, disjoint⟩ := distinct
    obtain ⟨b, below, position⟩ := placed hi hangs
    obtain ⟨b', below', position'⟩ := placed hj hangs'
    have same : b = b' := by
      cases b <;> cases b'
      · rfl
      · exact (disjoint below below').elim
      · exact (disjoint below' below).elim
      · rfl
    subst same
    rcases position with ⟨rfl, rfl, here⟩ | ⟨hi, elsewhere⟩ <;>
      rcases position' with ⟨rfl, rfl, here'⟩ | ⟨hj, elsewhere'⟩
    · exact ⟨rfl, rfl⟩
    · exact absurd here elsewhere'
    · exact absurd here' elsewhere
    · cases b with
      | left => exact ihl distinctl hi hj
      | right => exact ihr distinctr hi hj

/-- Every item is the top of a shape of its own. -/
theorem at_item {link : Option Nat} {s : Shape Nat} {j : Nat} (h : t.Spans link s)
    (hj : j ∈ s.preOrder) : ∃ s', t.Spans (some j) s' := by
  induction h with
  | empty => simp [Shape.preOrder] at hj
  | @node i n l r stored left right ihl ihr =>
    simp only [Shape.preOrder, List.mem_cons, List.mem_append] at hj
    rcases hj with rfl | hj | hj
    · exact ⟨_, .node stored left right⟩
    · exact ihl hj
    · exact ihr hj

/-- Left and right by way of the link are left and right in the shape. -/
theorem leftOf_iff {link : Option Nat} {s : Shape Nat} {i j : Nat} (h : t.Spans link s) :
    s.LeftOf i j ↔ ∃ start top l r, link = some start ∧ t.Reaches start top ∧
      t.Hangs top .left l ∧ t.Hangs top .right r ∧ t.Reaches l i ∧ t.Reaches r j := by
  induction h with
  | empty => simp [Shape.LeftOf]
  | @node start n l r stored left right ihl ihr =>
    simp only [Shape.LeftOf, ihl, ihr, left.mem_preOrder_iff, right.mem_preOrder_iff]
    constructor
    · rintro (⟨⟨c, link, ci⟩, d, link', dj⟩ | ⟨c, top, x, y, link, path, rest⟩ |
        ⟨c, top, x, y, link, path, rest⟩)
      · exact ⟨start, start, c, d, rfl, .refl, ⟨n, stored, link⟩, ⟨n, stored, link'⟩, ci, dj⟩
      · exact ⟨start, top, x, y, rfl, .head ⟨.left, n, stored, link⟩ path, rest⟩
      · exact ⟨start, top, x, y, rfl, .head ⟨.right, n, stored, link⟩ path, rest⟩
    · rintro ⟨start', top, x, y, same, path, hangs, hangs', xi, yj⟩
      cases same
      rcases Relation.ReflTransGen.cases_head path with rfl | ⟨c, ⟨side, hangs''⟩, path⟩
      · exact .inl ⟨⟨x, hangs.link_eq stored, xi⟩, y, hangs'.link_eq stored, yj⟩
      · have link := hangs''.link_eq stored
        cases side with
        | left => exact .inr (.inl ⟨c, top, x, y, link, path, hangs, hangs', xi, yj⟩)
        | right => exact .inr (.inr ⟨c, top, x, y, link, path, hangs, hangs', xi, yj⟩)

/-- A tree whose links unfold into a shape without repetitions is well formed. -/
theorem wellFormed {s : Shape Nat} (h : t.Spans t.root s) (rooted : t.root ≠ none)
    (distinct : s.preOrder.Nodup) : t.WellFormed where
  rooted := Option.ne_none_iff_exists'.mp rooted
  stored reachable := by
    obtain ⟨s', spans⟩ := h.at_item (h.mem_preOrder_iff.mpr reachable)
    cases spans with
    | node stored => exact ⟨_, stored⟩
  oneParent hi hj hangs hangs' :=
    h.oneParent distinct (h.mem_preOrder_iff.mpr hi) (h.mem_preOrder_iff.mpr hj) hangs hangs'
  acyclic reachable := by
    obtain ⟨s', spans⟩ := h.at_item (h.mem_preOrder_iff.mpr reachable)
    exact spans.acyclic

end Spans

namespace WellFormed

variable {t : Tree K}

/-- Nodes above one node stand one above the other. -/
theorem reaches_or_reaches (wf : t.WellFormed) {i j k : Nat} (hi : t.Reachable i)
    (hj : t.Reachable j) (ik : t.Reaches i k) (jk : t.Reaches j k) :
    t.Reaches i j ∨ t.Reaches j i := by
  induction ik with
  | refl => exact .inr jk
  | @tail m k im mk ih =>
    rcases Relation.ReflTransGen.cases_tail jk with rfl | ⟨m', jm, m'k⟩
    · exact .inl (im.tail mk)
    · obtain ⟨side, hangs⟩ := mk
      obtain ⟨side', hangs'⟩ := m'k
      obtain ⟨root, isRoot, path⟩ := hi
      obtain ⟨root', isRoot', path'⟩ := hj
      obtain ⟨rfl, -⟩ :=
        wf.oneParent ⟨root, isRoot, path.trans im⟩ ⟨root', isRoot', path'.trans jm⟩ hangs hangs'
      exact ih jm

/-- The subtrees on the two sides of a node have no node in common. -/
theorem siblings_disjoint (wf : t.WellFormed) {top l r k : Nat} (reachable : t.Reachable top)
    (left : t.Hangs top .left l) (right : t.Hangs top .right r) (lk : t.Reaches l k) :
    ¬ t.Reaches r k := by
  -- a path between the two children would come back through their parent
  have apart {side side' : Side} {c c' : Nat} (hangs : t.Hangs top side c)
      (hangs' : t.Hangs top side' c') (different : side ≠ side') : ¬ t.Reaches c c' := by
    intro path
    have below := reachable.child ⟨side, hangs⟩
    rcases Relation.ReflTransGen.cases_tail path with rfl | ⟨m, cm, side'', mc'⟩
    · exact different (wf.oneParent reachable reachable hangs hangs').2
    · obtain ⟨root, isRoot, path'⟩ := below
      obtain ⟨rfl, -⟩ := wf.oneParent ⟨root, isRoot, path'.trans cm⟩ reachable mc' hangs'
      exact wf.acyclic reachable (.head' ⟨side, hangs⟩ cm)
  intro rk
  rcases wf.reaches_or_reaches (reachable.child ⟨_, left⟩) (reachable.child ⟨_, right⟩) lk rk with
    path | path
  · exact apart left right (by simp) path
  · exact apart right left (by simp) path

/-- A shape that is found below a node of a well-formed tree has no repetitions. -/
theorem nodup_of_spans (wf : t.WellFormed) {link : Option Nat} {s : Shape Nat}
    (h : t.Spans link s) (reachable : ∀ i, link = some i → t.Reachable i) : s.preOrder.Nodup := by
  induction h with
  | empty => exact List.nodup_nil
  | @node i n l r stored left right ihl ihr =>
    have here : t.Reachable i := reachable i rfl
    have hangs (side : Side) {c : Nat} (link : n.link side = some c) : t.Hangs i side c :=
      ⟨n, stored, link⟩
    simp only [Shape.preOrder, List.nodup_cons, List.nodup_append', List.mem_append, not_or]
    refine ⟨⟨?_, ?_⟩, ihl ?_, ihr ?_, ?_⟩
    · intro below
      obtain ⟨c, link, path⟩ := left.mem_preOrder_iff.mp below
      exact wf.acyclic here (.head' ⟨.left, hangs .left link⟩ path)
    · intro below
      obtain ⟨c, link, path⟩ := right.mem_preOrder_iff.mp below
      exact wf.acyclic here (.head' ⟨.right, hangs .right link⟩ path)
    · exact fun c link => here.child ⟨.left, hangs .left link⟩
    · exact fun c link => here.child ⟨.right, hangs .right link⟩
    · intro j jl jr
      obtain ⟨c, link, path⟩ := left.mem_preOrder_iff.mp jl
      obtain ⟨c', link', path'⟩ := right.mem_preOrder_iff.mp jr
      exact wf.siblings_disjoint here (hangs .left link) (hangs .right link')
        path path'

/-- Following links for as many levels as there are nodes not yet passed finds everything. -/
theorem spans_shapeBelow (wf : t.WellFormed) (depth : Nat) {i : Nat} {above : List Nat}
    (reachable : t.Reachable i) (distinct : above.Nodup)
    (passed : ∀ a ∈ above, t.Reachable a ∧ Relation.TransGen t.IsParent a i)
    (enough : above.length + depth = t.size) :
    t.Spans (some i) (t.shapeBelow depth (some i)) := by
  have distinct' : (i :: above).Nodup :=
    List.nodup_cons.mpr ⟨fun here => wf.acyclic reachable (passed i here).2, distinct⟩
  induction depth generalizing i above with
  | zero =>
    have inRange : (i :: above) ⊆ List.range t.size := by
      intro a member
      have reachable : t.Reachable a := by
        rcases List.mem_cons.mp member with rfl | member
        · exact reachable
        · exact (passed a member).1
      obtain ⟨n, stored⟩ := wf.stored reachable
      exact List.mem_range.mpr (Array.getElem?_eq_some_iff.mp stored).1
    have tooMany := (distinct'.subperm inRange).length_le
    simp only [List.length_cons, List.length_range] at tooMany
    omega
  | succ depth ih =>
    obtain ⟨n, stored⟩ := wf.stored reachable
    have follow (side : Side) : t.Spans (n.link side) (t.shapeBelow depth (n.link side)) := by
      cases link : n.link side with
      | none => cases depth <;> exact .empty
      | some c =>
        have hangs : t.IsParent i c := ⟨side, n, stored, link⟩
        have passed' : ∀ a ∈ i :: above, t.Reachable a ∧ Relation.TransGen t.IsParent a c := by
          intro a member
          rcases List.mem_cons.mp member with rfl | member
          · exact ⟨reachable, .single hangs⟩
          · exact ⟨(passed a member).1, (passed a member).2.tail hangs⟩
        have reachable' := reachable.child hangs
        exact ih reachable' distinct' passed' (by simp only [List.length_cons]; omega)
          (List.nodup_cons.mpr ⟨fun here => wf.acyclic reachable' (passed' c here).2, distinct'⟩)
    simp only [shapeBelow, stored]
    exact .node stored (follow .left) (follow .right)

/-- The shape of a well-formed tree is what its links unfold into. -/
theorem spans_shape (wf : t.WellFormed) : t.Spans t.root t.shape := by
  obtain ⟨root, isRoot⟩ := wf.rooted
  have reachable : t.Reachable root := ⟨root, isRoot, .refl⟩
  rw [shape, isRoot]
  exact wf.spans_shapeBelow t.size reachable List.nodup_nil (by simp) (by simp)

theorem nodup_shape (wf : t.WellFormed) : t.shape.preOrder.Nodup :=
  wf.nodup_of_spans wf.spans_shape fun i isRoot => ⟨i, isRoot, .refl⟩

theorem shape_ne_empty (wf : t.WellFormed) : t.shape ≠ .empty := by
  obtain ⟨root, isRoot⟩ := wf.rooted
  have spans := wf.spans_shape
  rw [isRoot] at spans
  intro nothing
  rw [nothing] at spans
  cases spans

end WellFormed

/-- Trees are well formed exactly when their links unfold into a shape without repetitions. -/
theorem wellFormed_iff {t : Tree K} :
    t.WellFormed ↔ ∃ s, t.Spans t.root s ∧ s ≠ .empty ∧ s.preOrder.Nodup := by
  constructor
  · exact fun wf => ⟨t.shape, wf.spans_shape, wf.shape_ne_empty, wf.nodup_shape⟩
  · rintro ⟨s, spans, notEmpty, distinct⟩
    refine spans.wellFormed (fun noRoot => ?_) distinct
    rw [noRoot] at spans
    cases spans
    exact notEmpty rfl

/-- Left and right in a well-formed tree are left and right in its shape. -/
theorem WellFormed.leftOf_iff {t : Tree K} (wf : t.WellFormed) {i j : Nat} :
    t.LeftOf i j ↔ t.shape.LeftOf i j := by
  rw [wf.spans_shape.leftOf_iff]
  constructor
  · rintro ⟨top, l, r, ⟨root, isRoot, path⟩, rest⟩
    exact ⟨root, top, l, r, isRoot, path, rest⟩
  · rintro ⟨root, top, l, r, isRoot, path, rest⟩
    exact ⟨top, l, r, ⟨root, isRoot, path⟩, rest⟩

end Tree

end TreeDiagram
