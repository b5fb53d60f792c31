import TreeDiagram.Proofs.Tree.Links
/-!
# Paths

A path says at each node on which side it goes on. In a stored tree it leads along the links to a
node, in a shape to the subtree at that node. Trees with the same links are followed in the same
way, whatever coordinates and parents their nodes have.
-/

namespace TreeDiagram

namespace Shape

variable {α β : Type}

/-- The subtree on a side. -/
def branch : Shape α → Side → Shape α
  | empty, _ => empty
  | node _ l _, .left => l
  | node _ _ r, .right => r

/-- The subtree that a path leads to. -/
def subtree (s : Shape α) (path : List Side) : Shape α := path.foldl branch s

@[simp] theorem subtree_nil (s : Shape α) : s.subtree [] = s := rfl

@[simp] theorem subtree_cons (s : Shape α) (side : Side) (path : List Side) :
    s.subtree (side :: path) = (s.branch side).subtree path := rfl

@[simp] theorem subtree_append (s : Shape α) (path below : List Side) :
    s.subtree (path ++ below) = (s.subtree path).subtree below :=
  List.foldl_append

@[simp] theorem subtree_empty (path : List Side) : (empty : Shape α).subtree path = empty := by
  induction path with
  | nil => rfl
  | cons side path ih => exact ih

theorem branch_map (f : α → β) (s : Shape α) (side : Side) :
    (s.map f).branch side = (s.branch side).map f := by
  cases s with
  | empty => rfl
  | node a l r => cases side <;> rfl

theorem subtree_map (f : α → β) (s : Shape α) (path : List Side) :
    (s.map f).subtree path = (s.subtree path).map f := by
  induction path generalizing s with
  | nil => rfl
  | cons side path ih => rw [subtree_cons, subtree_cons, branch_map, ih]

@[simp] theorem root?_map (f : α → β) (s : Shape α) : (s.map f).root? = s.root?.map f := by
  cases s <;> rfl

@[simp] theorem height_map (f : α → β) (s : Shape α) : (s.map f).height = s.height := by
  induction s with
  | empty => rfl
  | node a l r ihl ihr => simp only [map, height, ihl, ihr]

/-- The items are what paths lead to. -/
theorem mem_preOrder_iff_path {s : Shape α} {a : α} :
    a ∈ s.preOrder ↔ ∃ path, (s.subtree path).root? = some a := by
  induction s with
  | empty => simp [preOrder, root?]
  | node b l r ihl ihr =>
    simp only [preOrder, List.mem_cons, List.mem_append, ihl, ihr]
    constructor
    · rintro (rfl | ⟨path, found⟩ | ⟨path, found⟩)
      · exact ⟨[], rfl⟩
      · exact ⟨.left :: path, found⟩
      · exact ⟨.right :: path, found⟩
    · rintro ⟨path, found⟩
      cases path with
      | nil => exact .inl (Option.some.inj found).symm
      | cons side path =>
        cases side with
        | left => exact .inr (.inl ⟨path, found⟩)
        | right => exact .inr (.inr ⟨path, found⟩)

theorem preOrder_branch_sublist (s : Shape α) (side : Side) :
    (s.branch side).preOrder.Sublist s.preOrder := by
  cases s with
  | empty => exact .refl _
  | node a l r =>
    cases side with
    | left => exact (List.sublist_append_left _ _).cons a
    | right => exact (List.sublist_append_right _ _).cons a

theorem preOrder_subtree_sublist (s : Shape α) (path : List Side) :
    (s.subtree path).preOrder.Sublist s.preOrder := by
  induction path generalizing s with
  | nil => exact .refl _
  | cons side path ih => exact (ih _).trans (s.preOrder_branch_sublist side)

/-- Two shapes of one form, whose items are related place by place. -/
inductive Forall₂ (R : α → β → Prop) : Shape α → Shape β → Prop
  | empty : Forall₂ R .empty .empty
  | node {a : α} {b : β} {l r : Shape α} {l' r' : Shape β} (items : R a b)
      (left : Forall₂ R l l') (right : Forall₂ R r r') :
      Forall₂ R (.node a l r) (.node b l' r')

namespace Forall₂

variable {R : α → β → Prop} {s : Shape α} {s' : Shape β}

theorem height_eq (h : Forall₂ R s s') : s.height = s'.height := by
  induction h with
  | empty => rfl
  | node _ _ _ ihl ihr => simp only [height, ihl, ihr]

theorem subtree (h : Forall₂ R s s') (path : List Side) :
    Forall₂ R (s.subtree path) (s'.subtree path) := by
  induction path generalizing s s' with
  | nil => exact h
  | cons side path ih =>
    cases h with
    | empty => simpa [branch] using Forall₂.empty
    | node _ left right =>
      cases side with
      | left => exact ih left
      | right => exact ih right

theorem of_root? (h : Forall₂ R s s') {a : α} {b : β} (here : s.root? = some a)
    (here' : s'.root? = some b) : R a b := by
  cases h with
  | empty => cases here
  | node items =>
    cases here
    cases here'
    exact items

theorem isSome_root? (h : Forall₂ R s s') : s.root?.isSome = s'.root?.isSome := by
  cases h <;> rfl

/-- Shapes have one form if the same paths lead to items. -/
theorem of_paths
    (same : ∀ path, (s.subtree path).root?.isSome = (s'.subtree path).root?.isSome) :
    Forall₂ (fun _ _ => True) s s' := by
  induction s generalizing s' with
  | empty =>
    cases s' with
    | empty => exact .empty
    | node b l' r' => simpa [root?] using same []
  | node a l r ihl ihr =>
    cases s' with
    | empty => simpa [root?] using same []
    | node b l' r' =>
      exact .node trivial (ihl fun path => same (.left :: path))
        (ihr fun path => same (.right :: path))

end Forall₂

end Shape

/-- The label of a node and the places of its children. -/
def Node.links {K : Type} (n : Node K) : String × Option Nat × Option Nat :=
  (n.label, n.left, n.right)

namespace Tree

variable {K : Type} {t t' : Tree K}

/-- The child of a node on a side. -/
def child? (t : Tree K) (i : Nat) (side : Side) : Option Nat :=
  (t.node? i).bind fun n => n.link side

/-- The node that a path leads to. -/
def follow? (t : Tree K) (start : Nat) (path : List Side) : Option Nat :=
  path.foldlM t.child? start

theorem hangs_iff_child? {i c : Nat} {side : Side} :
    t.Hangs i side c ↔ t.child? i side = some c :=
  Option.bind_eq_some_iff.symm

@[simp] theorem follow?_nil (i : Nat) : t.follow? i [] = some i := rfl

theorem follow?_cons (i : Nat) (side : Side) (path : List Side) :
    t.follow? i (side :: path) = (t.child? i side).bind fun c => t.follow? c path :=
  rfl

theorem follow?_append (i : Nat) (path below : List Side) :
    t.follow? i (path ++ below) = (t.follow? i path).bind fun j => t.follow? j below :=
  List.foldlM_append

/-- A node is reached by a path. -/
theorem reaches_iff_follow? {i j : Nat} : t.Reaches i j ↔ ∃ path, t.follow? i path = some j := by
  constructor
  · intro path
    induction path with
    | refl => exact ⟨[], rfl⟩
    | tail _ hangs ih =>
      obtain ⟨path, leads⟩ := ih
      obtain ⟨side, hangs⟩ := hangs
      refine ⟨path ++ [side], ?_⟩
      rw [follow?_append, leads, Option.bind_some, follow?_cons, hangs_iff_child?.mp hangs]
      rfl
  · rintro ⟨path, leads⟩
    induction path generalizing i with
    | nil =>
      cases leads
      exact .refl
    | cons side path ih =>
      obtain ⟨c, hangs, leads⟩ := Option.bind_eq_some_iff.mp leads
      exact .head ⟨side, hangs_iff_child?.mpr hangs⟩ (ih leads)

namespace Spans

theorem root? {link : Option Nat} {s : Shape Nat} (h : t.Spans link s) : s.root? = link := by
  cases h <;> rfl

theorem branch {i : Nat} {s : Shape Nat} (h : t.Spans (some i) s) (side : Side) :
    t.Spans (t.child? i side) (s.branch side) := by
  cases h with
  | node stored left right =>
    rw [child?, stored]
    cases side with
    | left => exact left
    | right => exact right

/-- A path leads to the same place in a stored tree and in the shape that its links unfold into. -/
theorem subtree {i : Nat} {s : Shape Nat} (h : t.Spans (some i) s) (path : List Side) :
    t.Spans (t.follow? i path) (s.subtree path) := by
  induction path generalizing i s with
  | nil => exact h
  | cons side path ih =>
    have below := h.branch side
    rw [follow?_cons, Shape.subtree_cons]
    cases link : t.child? i side with
    | some c =>
      rw [link] at below
      exact ih below
    | none =>
      rw [link] at below
      rw [below.unique .empty, Shape.subtree_empty]
      exact .empty

theorem follow?_eq {i : Nat} {s : Shape Nat} (h : t.Spans (some i) s) (path : List Side) :
    t.follow? i path = (s.subtree path).root? :=
  (h.subtree path).root?.symm

end Spans

/-- The same paths lead to nodes below two nodes. -/
def SameForm (t : Tree K) (i : Nat) (t' : Tree K) (i' : Nat) : Prop :=
  ∀ path, (t.follow? i path).isSome = (t'.follow? i' path).isSome

theorem sameForm_iff {i i' : Nat} {s s' : Shape Nat} (h : t.Spans (some i) s)
    (h' : t'.Spans (some i') s') :
    t.SameForm i t' i' ↔ Shape.Forall₂ (fun _ _ => True) s s' := by
  constructor
  · intro form
    refine .of_paths fun path => ?_
    rw [← h.follow?_eq, ← h'.follow?_eq]
    exact form path
  · intro form path
    rw [h.follow?_eq, h'.follow?_eq]
    exact (form.subtree path).isSome_root?

/-- The nodes of two trees have the same labels and the same children; their coordinates and parents
may differ. -/
def SameLinks (t t' : Tree K) : Prop :=
  ∀ i, (t.node? i).map Node.links = (t'.node? i).map Node.links

theorem node?_modify (t : Tree K) (i j : Nat) (f : Node K → Node K) :
    (t.modify i f).node? j = if i = j then (t.node? j).map f else t.node? j :=
  Array.getElem?_modify

@[simp] theorem size_modify (t : Tree K) (i : Nat) (f : Node K → Node K) :
    (t.modify i f).size = t.size :=
  Array.size_modify

/-- Trees with the same root and the same nodes are the same. -/
theorem ext_node? (root : t.root = t'.root) (nodes : ∀ i, t.node? i = t'.node? i) : t = t' := by
  cases t
  cases t'
  cases root
  congr
  exact Array.ext_getElem? nodes

theorem node?_eq_none {i : Nat} : t.node? i = none ↔ t.size ≤ i :=
  Array.getElem?_eq_none_iff

namespace SameLinks

theorem refl (t : Tree K) : t.SameLinks t := fun _ => rfl

theorem symm (same : t.SameLinks t') : t'.SameLinks t := fun i => (same i).symm

theorem trans {t'' : Tree K} (same : t.SameLinks t') (same' : t'.SameLinks t'') :
    t.SameLinks t'' :=
  fun i => (same i).trans (same' i)

/-- Coordinates and parents may be changed. -/
theorem modify (t : Tree K) (i : Nat) {f : Node K → Node K} (kept : ∀ n, (f n).links = n.links) :
    t.SameLinks (t.modify i f) := by
  intro j
  rw [node?_modify]
  split
  · cases t.node? j <;> simp [kept]
  · rfl

/-- A node of one tree is found in the other. -/
theorem exists_node (same : t.SameLinks t') {i : Nat} {n : Node K} (stored : t.node? i = some n) :
    ∃ n', t'.node? i = some n' ∧ n'.label = n.label ∧ n'.left = n.left ∧ n'.right = n.right := by
  have found := same i
  rw [stored, Option.map_some, eq_comm, Option.map_eq_some_iff] at found
  obtain ⟨n', stored', links⟩ := found
  simp only [Node.links, Prod.mk.injEq] at links
  exact ⟨n', stored', links⟩

theorem node?_eq_none_iff (same : t.SameLinks t') {i : Nat} :
    t.node? i = none ↔ t'.node? i = none := by
  rw [← Option.map_eq_none_iff, same i, Option.map_eq_none_iff]

theorem size_eq (same : t.SameLinks t') : t.size = t'.size := by
  have iff (i : Nat) : t.size ≤ i ↔ t'.size ≤ i := by
    rw [← node?_eq_none, ← node?_eq_none, same.node?_eq_none_iff]
  exact Nat.le_antisymm ((iff _).mpr (Nat.le_refl _)) ((iff _).mp (Nat.le_refl _))

theorem labelAt_eq (same : t.SameLinks t') : t.labelAt = t'.labelAt := by
  funext i
  have labels := congrArg (Option.map Prod.fst) (same i)
  simp only [Option.map_map] at labels
  exact congrArg (Option.getD · "") labels

theorem children_eq (same : t.SameLinks t') : t.children = t'.children := by
  funext i
  cases stored : t.node? i with
  | none => rw [children, children, stored, same.node?_eq_none_iff.mp stored]
  | some n =>
    obtain ⟨n', stored', -, left, right⟩ := same.exists_node stored
    simp only [children, stored, stored', left, right]

theorem child?_eq (same : t.SameLinks t') : t.child? = t'.child? := by
  funext i side
  cases side with
  | left =>
    have found := congrArg (Option.bind · fun links => links.2.1) (same i)
    simp only [Option.bind_map] at found
    exact found
  | right =>
    have found := congrArg (Option.bind · fun links => links.2.2) (same i)
    simp only [Option.bind_map] at found
    exact found

theorem hangs_iff (same : t.SameLinks t') {i c : Nat} {side : Side} :
    t.Hangs i side c ↔ t'.Hangs i side c := by
  rw [hangs_iff_child?, hangs_iff_child?, same.child?_eq]

theorem follow?_eq (same : t.SameLinks t') : t.follow? = t'.follow? := by
  funext i path
  rw [follow?, follow?, same.child?_eq]

theorem spans (same : t.SameLinks t') {link : Option Nat} {s : Shape Nat} (h : t.Spans link s) :
    t'.Spans link s := by
  induction h with
  | empty => exact .empty
  | node stored _ _ ihl ihr =>
    obtain ⟨n', stored', -, left, right⟩ := same.exists_node stored
    exact .node stored' (left ▸ ihl) (right ▸ ihr)

theorem shape_eq (same : t.SameLinks t') (root : t.root = t'.root) : t.shape = t'.shape := by
  have below (depth : Nat) (link : Option Nat) :
      t.shapeBelow depth link = t'.shapeBelow depth link := by
    induction depth generalizing link with
    | zero => rfl
    | succ depth ih =>
      cases link with
      | none => rfl
      | some i =>
        cases stored : t.node? i with
        | none => simp only [shapeBelow, stored, same.node?_eq_none_iff.mp stored]
        | some n =>
          obtain ⟨n', stored', -, left, right⟩ := same.exists_node stored
          simp only [shapeBelow, stored, stored', left, right, ih]
  rw [shape, shape, same.size_eq, root, below]

theorem wellFormed (same : t.SameLinks t') (root : t.root = t'.root) (wf : t.WellFormed) :
    t'.WellFormed := by
  obtain ⟨s, spans, notEmpty, distinct⟩ := wellFormed_iff.mp wf
  exact wellFormed_iff.mpr ⟨s, root ▸ same.spans spans, notEmpty, distinct⟩

end SameLinks

theorem sameLinks_setRoot (t : Tree K) (i : Nat) : t.SameLinks (t.setRoot i) :=
  SameLinks.modify t i (f := fun n => { n with parent := none }) fun _ => rfl

theorem WellFormed.setRoot (wf : t.WellFormed) {i : Nat} (reachable : t.Reachable i) :
    (t.setRoot i).WellFormed := by
  obtain ⟨s, spans⟩ := wf.spans_shape.at_item (wf.spans_shape.mem_preOrder_iff.mpr reachable)
  refine ((t.sameLinks_setRoot i).spans spans).wellFormed (Option.some_ne_none i) ?_
  exact wf.nodup_of_spans spans fun j same => Option.some.inj same ▸ reachable

end Tree

end TreeDiagram
