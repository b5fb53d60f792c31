import Mathlib.Order.Bounds.Basic
import Mathlib.Order.MinMax
import TreeDiagram.Proofs.Description.Grammar
import TreeDiagram.Proofs.Tree.Links
/-!
# Trees that a derivation describes

A stored tree is described by a derivation if it reads as the derivation when links are followed
from its root. Of the many stored trees that do, a description gives the one that has its nodes in
root, left, right order, none besides them, and a link back to its parent in every node.
-/

namespace TreeDiagram

namespace TreeDescription

variable {K : Type}

/-- What is read from a node on, left and right links being followed. -/
inductive Reads (t : Tree K) : Nat → Derivation → Prop
  | leaf {i : Nat} {n : Node K} (stored : t.node? i = some n) (noLeft : n.left = none)
      (noRight : n.right = none) : Reads t i (.leaf n.label)
  | branch {i l r : Nat} {n : Node K} {dl dr : Derivation} (stored : t.node? i = some n)
      (toLeft : n.left = some l) (toRight : n.right = some r) (left : Reads t l dl)
      (right : Reads t r dr) : Reads t i (.branch n.label dl dr)

/-- A description is the tree of a derivation, stored in pre-order. -/
structure Describes (desc : TreeDescription K) (d : Derivation) : Prop where
  read : ∃ root, desc.tree.root = some root ∧ Reads desc.tree root d
  noParent : ∀ root, desc.tree.root = some root →
    ∃ n, desc.tree.node? root = some n ∧ n.parent = none
  binary : ∀ i, desc.tree.Reachable i →
    (desc.tree.children i).length = 0 ∨ (desc.tree.children i).length = 2
  upward : ∀ i c, desc.tree.Reachable i → desc.tree.IsParent i c →
    ∃ n, desc.tree.node? c = some n ∧ n.parent = some i
  reached : ∀ i, i < desc.tree.size → desc.tree.Reachable i
  preOrder : desc.tree.shape.preOrder = List.range desc.tree.size
  longest : IsGreatest {size | ∃ label ∈ d.labels, label.utf8ByteSize = size} desc.longestLabel

namespace Derivation

/-- The places of the nodes, the first one given, where they are stored in pre-order. -/
def places (first : Nat) : Derivation → Shape Nat
  | leaf _ => .leaf first
  | branch _ l r => .node first (l.places (first + 1)) (r.places (first + 1 + l.size))

theorem preOrder_places (d : Derivation) (first : Nat) :
    (d.places first).preOrder = List.range' first d.size := by
  induction d generalizing first with
  | leaf label => rfl
  | branch label l r ihl ihr =>
    simp only [places, Shape.preOrder, ihl, ihr, size]
    rw [List.range'_succ, List.range'_append_1]

theorem isGreatest_longest (d : Derivation) :
    IsGreatest {size | ∃ label ∈ d.labels, label.utf8ByteSize = size} d.longest := by
  induction d with
  | leaf label =>
    refine ⟨⟨label, by simp [labels], rfl⟩, ?_⟩
    rintro size ⟨other, member, rfl⟩
    simp only [labels, List.mem_singleton] at member
    rw [member, longest]
  | branch label l r ihl ihr =>
    obtain ⟨⟨inLeft, memberl, lengthl⟩, boundl⟩ := ihl
    obtain ⟨⟨inRight, memberr, lengthr⟩, boundr⟩ := ihr
    constructor
    · rcases max_choice label.utf8ByteSize (max l.longest r.longest) with own | below
      · exact ⟨label, by simp [labels], own.symm⟩
      · rcases max_choice l.longest r.longest with left | right
        · exact ⟨inLeft, by simp [labels, memberl], by rw [longest, below, left, lengthl]⟩
        · exact ⟨inRight, by simp [labels, memberr], by rw [longest, below, right, lengthr]⟩
    · rintro size ⟨other, member, rfl⟩
      simp only [labels, List.mem_cons, List.mem_append] at member
      rw [longest]
      rcases member with rfl | member | member
      · exact le_max_left _ _
      · exact le_max_of_le_right (le_max_of_le_left (boundl ⟨other, member, rfl⟩))
      · exact le_max_of_le_right (le_max_of_le_right (boundr ⟨other, member, rfl⟩))

end Derivation

variable [Scalar K]

namespace Derivation

/-- The nodes in pre-order, for storing from a place on below a parent. -/
def rows (first : Nat) (parent : Option Nat) : Derivation → List (Node K)
  | leaf label => [{ Node.new label with parent }]
  | branch label l r =>
    { Node.new label with left := some (first + 1), right := some (first + 1 + l.size), parent } ::
      (l.rows (first + 1) (some first) ++ r.rows (first + 1 + l.size) (some first))

@[simp] theorem length_rows (d : Derivation) (first : Nat) (parent : Option Nat) :
    (d.rows (K := K) first parent).length = d.size := by
  induction d generalizing first parent with
  | leaf label => rfl
  | branch label l r ihl ihr => simp [rows, size, ihl, ihr]

/-- The description that has the nodes of a derivation and no others. -/
def description (d : Derivation) : TreeDescription K :=
  ⟨⟨(d.rows 0 none).toArray, some 0⟩, d.longest⟩

end Derivation

/-- The nodes of a derivation are stored from a place on. -/
inductive Stored (t : Tree K) : Nat → Option Nat → Derivation → Prop
  | leaf {first : Nat} {parent : Option Nat} {label : String}
      (top : t.node? first = some { Node.new label with parent }) :
      Stored t first parent (.leaf label)
  | branch {first : Nat} {parent : Option Nat} {label : String} {l r : Derivation}
      (top : t.node? first = some { Node.new label with
        left := some (first + 1), right := some (first + 1 + l.size), parent })
      (left : Stored t (first + 1) (some first) l)
      (right : Stored t (first + 1 + l.size) (some first) r) :
      Stored t first parent (.branch label l r)

theorem stored_of_rows {t : Tree K} (d : Derivation) {first : Nat} {parent : Option Nat}
    (rows : ∀ k n, (d.rows first parent)[k]? = some n → t.node? (first + k) = some n) :
    Stored t first parent d := by
  induction d generalizing first parent with
  | leaf label => exact .leaf (rows 0 _ rfl)
  | branch label l r ihl ihr =>
    refine .branch (rows 0 _ rfl) (ihl fun k n here => ?_) (ihr fun k n here => ?_)
    · have inLeft : k < l.size := by
        simpa using (List.getElem?_eq_some_iff.mp here).1
      have found := rows (k + 1) n (by
        rw [Derivation.rows, List.getElem?_cons_succ, List.getElem?_append_left (by simpa), here])
      rwa [show first + (k + 1) = first + 1 + k by omega] at found
    · have found := rows (l.size + k + 1) n (by
        rw [Derivation.rows, List.getElem?_cons_succ, List.getElem?_append_right (by simp)]
        simpa using here)
      rwa [show first + (l.size + k + 1) = first + 1 + l.size + k by omega] at found

namespace Stored

variable {t : Tree K} {first : Nat} {parent : Option Nat} {d : Derivation}

theorem reads (h : Stored t first parent d) : Reads t first d := by
  induction h with
  | leaf top => exact .leaf top rfl rfl
  | branch top _ _ ihl ihr => exact .branch top rfl rfl ihl ihr

theorem spans (h : Stored t first parent d) : t.Spans (some first) (d.places first) := by
  induction h with
  | leaf top => exact .node top .empty .empty
  | branch top _ _ ihl ihr => exact .node top ihl ihr

theorem parent_eq (h : Stored t first parent d) :
    ∃ n, t.node? first = some n ∧ n.parent = parent := by
  cases h with
  | leaf top => exact ⟨_, top, rfl⟩
  | branch top => exact ⟨_, top, rfl⟩

/-- Every node has no child or two, and these name it as their parent. -/
theorem links (h : Stored t first parent d) {i : Nat} (behind : first ≤ i)
    (below : i < first + d.size) :
    ((t.children i).length = 0 ∨ (t.children i).length = 2) ∧
      ∀ c, t.IsParent i c → ∃ n, t.node? c = some n ∧ n.parent = some i := by
  induction h with
  | @leaf first parent label top =>
    have here : i = first := by
      simp only [Derivation.size] at below
      omega
    subst here
    refine ⟨.inl (by simp [Tree.children, top, Node.new]), ?_⟩
    rintro c ⟨side, hangs⟩
    have link := hangs.link_eq top
    cases side <;> simp [Node.link, Node.new] at link
  | @branch first parent label l r top left right ihl ihr =>
    simp only [Derivation.size] at below
    by_cases here : i = first
    · subst here
      refine ⟨.inr (by simp [Tree.children, top]), ?_⟩
      rintro c ⟨side, hangs⟩
      have link := hangs.link_eq top
      cases side with
      | left =>
        cases link
        exact left.parent_eq
      | right =>
        cases link
        exact right.parent_eq
    · by_cases inLeft : i < first + 1 + l.size
      · exact ihl (by omega) inLeft
      · exact ihr (by omega) (by omega)

end Stored

theorem stored_description (d : Derivation) : Stored (K := K) d.description.tree 0 none d := by
  refine stored_of_rows d fun k n here => ?_
  simpa [Derivation.description, Tree.node?] using here

theorem preOrder_places_zero (d : Derivation) : (d.places 0).preOrder = List.range d.size := by
  rw [d.preOrder_places, List.range_eq_range']

theorem wellFormed_description (d : Derivation) : (d.description (K := K)).tree.WellFormed := by
  refine (stored_description d).spans.wellFormed (by simp [Derivation.description]) ?_
  rw [preOrder_places_zero]
  exact List.nodup_range

theorem shape_description (d : Derivation) : (d.description (K := K)).tree.shape = d.places 0 :=
  (wellFormed_description d).spans_shape.unique (stored_description d).spans

/-- The description made of the nodes of a derivation is described by it. -/
theorem describes_description (d : Derivation) : Describes (K := K) d.description d := by
  have whole := stored_description (K := K) d
  have size : (d.description (K := K)).tree.size = d.size := by
    simp [Derivation.description, Tree.size]
  have reachable (i : Nat) : (d.description (K := K)).tree.Reachable i ↔ i < d.size := by
    have members := whole.spans.mem_preOrder_iff (j := i)
    rw [preOrder_places_zero, List.mem_range] at members
    exact members.symm
  exact {
    read := ⟨0, rfl, whole.reads⟩
    noParent := by
      intro root isRoot
      cases isRoot
      exact whole.parent_eq
    binary := by
      intro i here
      exact (whole.links (Nat.zero_le i) (by simpa using (reachable i).mp here)).1
    upward := by
      intro i c here
      exact (whole.links (Nat.zero_le i) (by simpa using (reachable i).mp here)).2 c
    reached := by
      intro i inside
      rw [size] at inside
      exact (reachable i).mpr inside
    preOrder := by
      rw [shape_description, preOrder_places_zero, size]
    longest := d.isGreatest_longest }

end TreeDescription

end TreeDiagram
