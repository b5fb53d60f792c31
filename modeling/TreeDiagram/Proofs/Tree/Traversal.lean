import TreeDiagram.Proofs.Tree.Paths
import TreeDiagram.Tree.Traversal
/-!
# Walks over a stored tree

The walks that keep their pending nodes in a list visit what is found by recursion: the nodes in
root, left, right order, in left, right, root order, and level after level. The limit on the number
of steps is never met, since a well-formed tree has at most as many nodes as are stored.
-/

namespace TreeDiagram

namespace Shape

variable {α : Type}

theorem height_le_size (s : Shape α) : s.height ≤ s.size := by
  induction s with
  | empty => exact Nat.le_refl 0
  | node a l r ihl ihr =>
    simp only [height, size]
    omega

@[simp] theorem level_zero (s : Shape α) : s.level 0 = s.root?.toList := by
  cases s <;> rfl

theorem level_eq_nil_iff {s : Shape α} {k : Nat} : s.level k = [] ↔ s.height ≤ k := by
  induction s generalizing k with
  | empty => simp [level, height]
  | node a l r ihl ihr =>
    cases k with
    | zero => simp [level, height]
    | succ k =>
      simp only [level, height, List.append_eq_nil_iff, ihl, ihr, Nat.add_le_add_iff_right,
        Nat.max_le]

/-- Both orders list the same items. -/
theorem postOrder_perm (s : Shape α) : s.postOrder.Perm s.preOrder := by
  induction s with
  | empty => exact .refl _
  | node a l r ihl ihr =>
    exact (List.perm_append_singleton a _).trans ((ihl.append ihr).cons a)

theorem lt_height_of_mem_level {s : Shape α} {k : Nat} {a : α} (member : a ∈ s.level k) :
    k < s.height := by
  by_contra ended
  rw [level_eq_nil_iff.mpr (Nat.le_of_not_lt ended)] at member
  cases member

/-- An item that is there only once is on one level only. -/
theorem level_unique {s : Shape α} (distinct : s.preOrder.Nodup) {j k : Nat} {a : α}
    (hj : a ∈ s.level j) (hk : a ∈ s.level k) : j = k := by
  induction s generalizing j k with
  | empty => simp [level] at hj
  | node b l r ihl ihr =>
    simp only [preOrder, List.nodup_cons, List.nodup_append', List.mem_append, not_or] at distinct
    obtain ⟨⟨notl, notr⟩, distinctl, distinctr, disjoint⟩ := distinct
    have below {i : Nat} {t : Shape α} (h : a ∈ t.level i) : a ∈ t.preOrder :=
      mem_preOrder_iff.mpr ⟨i, h⟩
    cases j with
    | zero =>
      cases List.mem_singleton.mp hj
      cases k with
      | zero => rfl
      | succ k =>
        rcases List.mem_append.mp hk with hk | hk
        · exact absurd (below hk) notl
        · exact absurd (below hk) notr
    | succ j =>
      cases k with
      | zero =>
        cases List.mem_singleton.mp hk
        rcases List.mem_append.mp hj with hj | hj
        · exact absurd (below hj) notl
        · exact absurd (below hj) notr
      | succ k =>
        rcases List.mem_append.mp hj with hj | hj <;> rcases List.mem_append.mp hk with hk | hk
        · rw [ihl distinctl hj hk]
        · exact (disjoint (below hj) (below hk)).elim
        · exact (disjoint (below hk) (below hj)).elim
        · rw [ihr distinctr hj hk]

end Shape

namespace Tree

variable {K : Type} {t : Tree K}

theorem children_of_node? {i : Nat} {n : Node K} (stored : t.node? i = some n) :
    t.children i = n.left.toList ++ n.right.toList := by
  simp only [children, stored]

theorem mem_children_iff {i c : Nat} : c ∈ t.children i ↔ t.IsParent i c := by
  constructor
  · intro member
    cases stored : t.node? i with
    | none => simp [children, stored] at member
    | some n =>
      rw [children_of_node? stored, List.mem_append, Option.mem_toList, Option.mem_toList] at member
      rcases member with link | link
      · exact ⟨.left, n, stored, link⟩
      · exact ⟨.right, n, stored, link⟩
  · rintro ⟨side, n, stored, link⟩
    rw [children_of_node? stored, List.mem_append, Option.mem_toList, Option.mem_toList]
    cases side with
    | left => exact .inl link
    | right => exact .inr link

namespace Spans

theorem size_le {link : Option Nat} {s : Shape Nat} (h : t.Spans link s)
    (distinct : s.preOrder.Nodup) : s.size ≤ t.size := by
  have inRange : s.preOrder ⊆ List.range t.size := by
    intro i member
    obtain ⟨s', spans⟩ := h.at_item member
    cases spans with
    | node stored => exact List.mem_range.mpr (Array.getElem?_eq_some_iff.mp stored).1
  simpa using (distinct.subperm inRange).length_le

/-- Visiting a subtree first lists it and then goes on with what is pending behind it. -/
theorem visitDown_append {link : Option Nat} {s : Shape Nat} (h : t.Spans link s) {steps : Nat}
    (enough : s.size ≤ steps) (pending : List Nat) :
    t.visitDown steps (link.toList ++ pending) =
      s.preOrder ++ t.visitDown (steps - s.size) pending := by
  induction h generalizing steps pending with
  | empty => rfl
  | @node i n l r stored left right ihl ihr =>
    simp only [Shape.size] at enough
    obtain ⟨steps, rfl⟩ : ∃ k, steps = k + 1 := ⟨steps - 1, by omega⟩
    simp only [Option.toList_some, List.singleton_append, visitDown, children_of_node? stored,
      List.append_assoc]
    rw [ihl (by omega), ihr (by omega)]
    simp only [Shape.preOrder, Shape.size, List.cons_append, List.append_assoc]
    congr 4
    omega

/-- Visiting a subtree from the right puts its nodes, lowest first, before those visited. -/
theorem visitUp_append {link : Option Nat} {s : Shape Nat} (h : t.Spans link s) {steps : Nat}
    (enough : s.size ≤ steps) (pending visited : List Nat) :
    t.visitUp steps (link.toList ++ pending) visited =
      t.visitUp (steps - s.size) pending (s.postOrder ++ visited) := by
  induction h generalizing steps pending visited with
  | empty => rfl
  | @node i n l r stored left right ihl ihr =>
    simp only [Shape.size] at enough
    obtain ⟨steps, rfl⟩ : ∃ k, steps = k + 1 := ⟨steps - 1, by omega⟩
    have children : (t.children i).reverse = n.right.toList ++ n.left.toList := by
      rw [children_of_node? stored]
      cases n.left <;> cases n.right <;> rfl
    simp only [Option.toList_some, List.singleton_append, visitUp, children, List.append_assoc]
    rw [ihr (by omega), ihl (by omega)]
    simp only [Shape.postOrder, Shape.size, List.append_assoc, List.singleton_append]
    congr 1
    omega

theorem nextLevel_level {link : Option Nat} {s : Shape Nat} (h : t.Spans link s) (k : Nat) :
    t.nextLevel (s.level k) = s.level (k + 1) := by
  induction h generalizing k with
  | empty => cases k <;> rfl
  | @node i n l r stored left right ihl ihr =>
    cases k with
    | zero =>
      simp only [Shape.level, nextLevel, List.flatMap_singleton]
      rw [children_of_node? stored, Shape.level_zero, Shape.level_zero, left.root?, right.root?]
    | succ k =>
      simp only [nextLevel] at ihl ihr
      simp only [Shape.level, nextLevel, List.flatMap_append, ihl, ihr]

theorem levelsBelow_level {link : Option Nat} {s : Shape Nat} (h : t.Spans link s)
    (steps k : Nat) (enough : s.height ≤ k + steps) :
    t.levelsBelow steps (s.level k) = (List.range' k (s.height - k)).map (Shape.level · s) := by
  induction steps generalizing k with
  | zero =>
    rw [levelsBelow, Nat.sub_eq_zero_of_le (by omega)]
    rfl
  | succ steps ih =>
    by_cases ended : s.height ≤ k
    · rw [Shape.level_eq_nil_iff.mpr ended, Nat.sub_eq_zero_of_le ended]
      rfl
    · have rest := ih (k + 1) (by omega)
      rw [levelsBelow, h.nextLevel_level, rest]
      · rw [show s.height - k = s.height - (k + 1) + 1 by omega, List.range'_succ, List.map_cons]
      · exact fun nothing => ended (Shape.level_eq_nil_iff.mp nothing)

/-- The levels below a node. -/
theorem levelsOf_eq {i : Nat} {s : Shape Nat} (h : t.Spans (some i) s)
    (distinct : s.preOrder.Nodup) : t.levelsOf i = (List.range s.height).map (Shape.level · s) := by
  have first : s.level 0 = [i] := by rw [Shape.level_zero, h.root?]; rfl
  have below := h.levelsBelow_level t.size 0
    (by have := h.size_le distinct; have := s.height_le_size; omega)
  rw [levelsOf, ← first, below, Nat.sub_zero, List.range_eq_range']

/-- A level below a node. -/
theorem getElem?_levelsOf {i k : Nat} {s : Shape Nat} (h : t.Spans (some i) s)
    (distinct : s.preOrder.Nodup) {row : List Nat} :
    (t.levelsOf i)[k]? = some row ↔ k < s.height ∧ s.level k = row := by
  rw [h.levelsOf_eq distinct, List.getElem?_eq_some_iff]
  simp

end Spans

namespace WellFormed

theorem preOrder_eq (wf : t.WellFormed) : t.preOrder = t.shape.preOrder := by
  have walk := wf.spans_shape.visitDown_append (wf.spans_shape.size_le wf.nodup_shape) []
  rw [List.append_nil] at walk
  rw [preOrder, walk]
  cases t.size - t.shape.size <;> simp [visitDown]

theorem postOrder_eq (wf : t.WellFormed) : t.postOrder = t.shape.postOrder := by
  have walk := wf.spans_shape.visitUp_append (wf.spans_shape.size_le wf.nodup_shape) [] []
  rw [List.append_nil, List.append_nil] at walk
  rw [postOrder, walk]
  cases t.size - t.shape.size <;> simp [visitUp]

end WellFormed

end Tree

end TreeDiagram
