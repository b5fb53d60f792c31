import TreeDiagram.Layout.Arrangement
import TreeDiagram.Proofs.Layout.Levels
/-!
# Climbing to the top of a subtree

The places and shifts that are stored at the nodes of a subtree make up an arrangement. Climbing
from every node of a level to the top of the subtree, along the parents, finds the row of that
level. The limit on the number of steps is never met.
-/

namespace TreeDiagram

namespace Tree

variable {K : Type} [Scalar K]

/-- What is stored of the place of a node. -/
def spotAt (t : Tree K) (i : Nat) : Spot K := ⟨i, t.xAt i, t.shiftAt i⟩

/-- What is stored of the places of the nodes of a shape. -/
def arrangement (t : Tree K) (s : Shape Nat) : Arrangement K := s.map t.spotAt

variable {t t' : Tree K}

theorem xAt_of_node? {i : Nat} {n : Node K} (stored : t.node? i = some n) : t.xAt i = n.x := by
  rw [xAt, stored]
  rfl

theorem shiftAt_of_node? {i : Nat} {n : Node K} (stored : t.node? i = some n) :
    t.shiftAt i = n.shift := by
  rw [shiftAt, stored]
  rfl

theorem shiftAt_congr {i : Nat} (same : t'.node? i = t.node? i) : t'.shiftAt i = t.shiftAt i := by
  rw [shiftAt, same, ← shiftAt]

theorem arrangement_node (i : Nat) (l r : Shape Nat) :
    t.arrangement (.node i l r) = .node (t.spotAt i) (t.arrangement l) (t.arrangement r) := rfl

theorem arrangement_congr {s : Shape Nat} (same : ∀ i ∈ s.preOrder, t.node? i = t'.node? i) :
    t.arrangement s = t'.arrangement s := by
  induction s with
  | empty => rfl
  | node i l r ihl ihr =>
    simp only [Shape.preOrder, List.mem_cons, List.mem_append] at same
    rw [arrangement_node, arrangement_node, ihl fun j member => same j (.inr (.inl member)),
      ihr fun j member => same j (.inr (.inr member)), spotAt, spotAt, xAt, xAt, shiftAt, shiftAt,
      same i (.inl rfl)]

theorem arrangement_modify {i : Nat} {s : Shape Nat} (apart : i ∉ s.preOrder)
    (f : Node K → Node K) : (t.modify i f).arrangement s = t.arrangement s := by
  refine arrangement_congr fun j member => ?_
  rw [node?_modify, if_neg]
  rintro rfl
  exact apart member

theorem climb_start {i steps : Nat} {n : Node K} (stored : t.node? i = some n) (x : K) :
    t.climb i (steps + 1) i x = x + t.shiftAt i := by
  simp only [climb, stored, if_true, shiftAt_of_node? stored]

/-- Goes on climbing above a subtree. -/
def climbFrom (t : Tree K) (start steps : Nat) (above : Option Nat) (x : K) : K :=
  match above with
  | none => x
  | some p => t.climb start steps p x

theorem climb_step {start i steps : Nat} {n : Node K} (stored : t.node? i = some n)
    (below : i ≠ start) (x : K) :
    t.climb start (steps + 1) i x = t.climbFrom start steps n.parent (x + t.shiftAt i) := by
  simp only [climb, stored, if_neg below, shiftAt_of_node? stored]
  cases n.parent <;> rfl

namespace Threaded

/-- From a level of a subtree that lies below the start, all climbs come by its top. -/
theorem climb_out {above link : Option Nat} {s : Shape Nat} (h : t.Threaded above link s)
    {start : Nat} (below : start ∉ s.preOrder) (k steps : Nat) :
    (s.level k).map (fun j => t.climb start (k + 1 + steps) j (t.xAt j)) =
      (Arrangement.row k (t.arrangement s)).map (t.climbFrom start steps above) := by
  induction h generalizing k steps with
  | empty => cases k <;> rfl
  | @node above i n l r stored back left right ihl ihr =>
    simp only [Shape.preOrder, List.mem_cons, List.mem_append, not_or] at below
    have step (steps : Nat) (x : K) :
        t.climb start (steps + 1) i x = t.climbFrom start steps above (x + t.shiftAt i) :=
      back ▸ climb_step stored (Ne.symm below.1) x
    cases k with
    | zero =>
      rw [Nat.add_comm 0, Nat.add_comm]
      simp only [Shape.level, List.map_singleton, step, arrangement_node, Arrangement.row, spotAt]
    | succ k =>
      have on : t.climbFrom start (steps + 1) (some i) =
          t.climbFrom start steps above ∘ (· + t.shiftAt i) := funext (step steps)
      rw [show k + 1 + 1 + steps = k + 1 + (steps + 1) by omega]
      simp only [Shape.level, List.map_append, ihl below.2.1, ihr below.2.2, on, arrangement_node,
        Arrangement.row, List.map_map, spotAt]

/-- From the levels of a subtree to its top. -/
theorem climb_top {above : Option Nat} {i : Nat} {s : Shape Nat}
    (h : t.Threaded above (some i) s) (distinct : s.preOrder.Nodup) (k steps : Nat) :
    (s.level k).map (fun j => t.climb i (k + 1 + steps) j (t.xAt j)) =
      Arrangement.row k (t.arrangement s) := by
  cases h with
  | @node _ _ n l r stored back left right =>
    simp only [Shape.preOrder, List.nodup_cons, List.mem_append, not_or] at distinct
    have start (steps : Nat) (x : K) : t.climb i (steps + 1) i x = x + t.shiftAt i :=
      climb_start stored x
    cases k with
    | zero =>
      rw [Nat.add_comm 0, Nat.add_comm]
      simp only [Shape.level, List.map_singleton, start, arrangement_node, Arrangement.row, spotAt]
    | succ k =>
      have on : t.climbFrom i (steps + 1) (some i) = (· + t.shiftAt i) := funext (start steps)
      rw [show k + 1 + 1 + steps = k + 1 + (steps + 1) by omega]
      simp only [Shape.level, List.map_append, left.climb_out distinct.1.1,
        right.climb_out distinct.1.2, on, arrangement_node, Arrangement.row, spotAt]

/-- Where the nodes of a level stand as part of a subtree is the row of the level. -/
theorem map_effectiveX {above : Option Nat} {i : Nat} {s : Shape Nat}
    (h : t.Threaded above (some i) s) (distinct : s.preOrder.Nodup) (k : Nat) :
    (s.level k).map (t.effectiveX i) = Arrangement.row k (t.arrangement s) := by
  rw [← h.climb_top distinct k (t.size - (k + 1))]
  refine List.map_congr_left fun j member => ?_
  have := Shape.lt_height_of_mem_level member
  have := h.spans.size_le distinct
  have := s.height_le_size
  rw [effectiveX, show k + 1 + (t.size - (k + 1)) = t.size by omega]

end Threaded

end Tree

end TreeDiagram
