import TreeDiagram.Proofs.Layout.Climbing
/-!
# Two subtrees side by side

Separating the subtrees of two siblings in place changes the shift of the right sibling and nothing
else, and the places that are stored then are the separated arrangement.
-/

namespace TreeDiagram

/-- The node with another shift. -/
def Node.shiftedTo {K : Type} (z : K) (n : Node K) : Node K := { n with shift := z }

/-- The links, the parent and the height of a node. -/
def Node.frame {K : Type} (n : Node K) : (String × Option Nat × Option Nat) × Option Nat × K :=
  (n.links, n.parent, n.y)

namespace Arrangement

variable {K : Type} [Scalar K]

/-- The arrangement with another shift. -/
def shiftedTo (z : K) : Arrangement K → Arrangement K
  | .empty => .empty
  | .node s l r => .node { s with shift := z } l r

end Arrangement

namespace Tree

variable {K : Type}

theorem modify_modify (t : Tree K) (i : Nat) (f g : Node K → Node K) :
    (t.modify i f).modify i g = t.modify i fun n => g (f n) := by
  refine ext_node? rfl fun j => ?_
  simp only [node?_modify]
  split
  · rw [Option.map_map]
    rfl
  · rfl

/-- A change of a node depends on what it does to what is stored. -/
theorem modify_congr {t : Tree K} {i : Nat} {f g : Node K → Node K}
    (same : ∀ n, t.node? i = some n → f n = g n) : t.modify i f = t.modify i g := by
  refine ext_node? rfl fun j => ?_
  simp only [node?_modify]
  split
  · next here =>
    subst here
    cases stored : t.node? i with
    | none => rfl
    | some n => rw [Option.map_some, Option.map_some, same n stored]
  · rfl

theorem modify_id (t : Tree K) (i : Nat) : t.modify i id = t := by
  refine ext_node? rfl fun j => ?_
  rw [node?_modify, Option.map_id]
  exact ite_self _

/-- The nodes of two trees have the same links, parents and heights. -/
def SameFrame (t t' : Tree K) : Prop :=
  ∀ i, (t.node? i).map Node.frame = (t'.node? i).map Node.frame

namespace SameFrame

variable {t t' : Tree K}

theorem refl (t : Tree K) : t.SameFrame t := fun _ => rfl

theorem trans {t'' : Tree K} (same : t.SameFrame t') (same' : t'.SameFrame t'') :
    t.SameFrame t'' :=
  fun i => (same i).trans (same' i)

/-- Places and shifts may be changed. -/
theorem modify (t : Tree K) (i : Nat) {f : Node K → Node K} (kept : ∀ n, (f n).frame = n.frame) :
    t.SameFrame (t.modify i f) := by
  intro j
  rw [node?_modify]
  split
  · cases t.node? j <;> simp [kept]
  · rfl

theorem sameLinks (same : t.SameFrame t') : t.SameLinks t' := by
  intro i
  have links := congrArg (Option.map Prod.fst) (same i)
  simp only [Option.map_map] at links
  exact links

theorem exists_node (same : t.SameFrame t') {i : Nat} {n : Node K} (stored : t.node? i = some n) :
    ∃ n', t'.node? i = some n' ∧ n'.frame = n.frame := by
  have found := same i
  rw [stored, Option.map_some, eq_comm] at found
  exact Option.map_eq_some_iff.mp found

theorem threaded (same : t.SameFrame t') {above link : Option Nat} {s : Shape Nat}
    (h : t.Threaded above link s) : t'.Threaded above link s := by
  induction h with
  | empty => exact .empty
  | @node above i n l r stored back _ _ ihl ihr =>
    obtain ⟨n', stored', frame⟩ := same.exists_node stored
    simp only [Node.frame, Node.links, Prod.mk.injEq] at frame
    obtain ⟨⟨-, left, right⟩, parent, -⟩ := frame
    exact .node stored' (parent.trans back) (left ▸ ihl) (right ▸ ihr)

end SameFrame

/-- Two subtrees below one parent that have no node in common. -/
structure Siblings (t : Tree K) (above : Option Nat) (left right : Nat) (sl sr : Shape Nat) :
    Prop where
  threadedLeft : t.Threaded above (some left) sl
  threadedRight : t.Threaded above (some right) sr
  distinct : (sl.preOrder ++ sr.preOrder).Nodup

namespace Siblings

variable {t : Tree K} {above : Option Nat} {left right : Nat} {sl sr : Shape Nat}

theorem distinctLeft (sib : t.Siblings above left right sl sr) : sl.preOrder.Nodup :=
  (List.nodup_append'.mp sib.distinct).1

theorem distinctRight (sib : t.Siblings above left right sl sr) : sr.preOrder.Nodup :=
  (List.nodup_append'.mp sib.distinct).2.1

theorem right_notMem (sib : t.Siblings above left right sl sr) : right ∉ sl.preOrder := by
  intro member
  have top : right ∈ sr.preOrder :=
    sib.threadedRight.spans.mem_preOrder_iff.mpr ⟨right, rfl, .refl⟩
  exact (List.nodup_append'.mp sib.distinct).2.2 member top

theorem shiftedTo (sib : t.Siblings above left right sl sr) (z : K) :
    (t.modify right (Node.shiftedTo z)).Siblings above left right sl sr :=
  have kept : t.SameFrame (t.modify right (Node.shiftedTo z)) := .modify t right fun _ => rfl
  ⟨kept.threaded sib.threadedLeft, kept.threaded sib.threadedRight, sib.distinct⟩

end Siblings

variable [Scalar K]

theorem arrangement_shiftedTo {t : Tree K} {i : Nat} {s : Shape Nat} (h : t.Spans (some i) s)
    (distinct : s.preOrder.Nodup) (z : K) :
    (t.modify i (Node.shiftedTo z)).arrangement s = (t.arrangement s).shiftedTo z := by
  cases h with
  | @node _ n l r stored left right =>
    simp only [Shape.preOrder, List.nodup_cons, List.mem_append, not_or] at distinct
    have here : (t.modify i (Node.shiftedTo z)).node? i = some (n.shiftedTo z) := by
      rw [node?_modify, if_pos rfl, stored, Option.map_some]
    rw [arrangement_node, arrangement_node, arrangement_modify distinct.1.1,
      arrangement_modify distinct.1.2, spotAt, xAt_of_node? here, shiftAt_of_node? here, spotAt,
      xAt_of_node? stored]
    rfl

theorem Spans.top_arrangement {t : Tree K} {i : Nat} {s : Shape Nat} (h : t.Spans (some i) s) :
    (t.arrangement s).top = t.xAt i + t.shiftAt i := by
  cases h
  rfl

theorem Spans.moved_arrangement {t : Tree K} {i : Nat} {s : Shape Nat} (h : t.Spans (some i) s)
    (d : K) : (t.arrangement s).moved d = (t.arrangement s).shiftedTo (t.shiftAt i + d) := by
  cases h
  rfl

theorem Spans.top_shiftedTo {t : Tree K} {i : Nat} {s : Shape Nat} (h : t.Spans (some i) s)
    (z : K) : ((t.arrangement s).shiftedTo z).top = t.xAt i + z := by
  cases h
  rfl

theorem modify_shiftedTo_shiftAt (t : Tree K) (i : Nat) :
    t.modify i (Node.shiftedTo (t.shiftAt i)) = t := by
  rw [modify_congr (g := id), modify_id]
  intro n stored
  rw [shiftAt_of_node? stored]
  rfl

theorem modify_shifted (t : Tree K) (i : Nat) (d : K) :
    t.modify i (Node.shifted d) = t.modify i (Node.shiftedTo (t.shiftAt i + d)) := by
  refine modify_congr fun n stored => ?_
  rw [shiftAt_of_node? stored]
  rfl

namespace Siblings

variable {t : Tree K} {above : Option Nat} {left right : Nat} {sl sr : Shape Nat}

/-- Shifting the right subtree leaves the left one where it is. -/
theorem arrangement_left (sib : t.Siblings above left right sl sr) (z : K) :
    (t.modify right (Node.shiftedTo z)).arrangement sl = t.arrangement sl :=
  arrangement_modify sib.right_notMem _

theorem separateLevel (sib : t.Siblings above left right sl sr) (h : K) (k : Nat) :
    ∃ z, t.separateLevel h left right (sl.level k) (sr.level k) =
        t.modify right (Node.shiftedTo z) ∧
      (t.modify right (Node.shiftedTo z)).arrangement sr =
        Arrangement.separateLevel h (t.arrangement sl) (t.arrangement sr) k := by
  have spans := sib.threadedRight.spans
  have still : ∃ z, t = t.modify right (Node.shiftedTo z) ∧
      (t.modify right (Node.shiftedTo z)).arrangement sr = t.arrangement sr :=
    ⟨t.shiftAt right, (t.modify_shiftedTo_shiftAt right).symm,
      by rw [modify_shiftedTo_shiftAt]⟩
  rw [Tree.separateLevel, Arrangement.separateLevel,
    sib.threadedLeft.map_effectiveX sib.distinctLeft,
    sib.threadedRight.map_effectiveX sib.distinctRight]
  cases Scalar.largest? (Arrangement.row k (t.arrangement sl)) with
  | none => exact still
  | some rightmost =>
    cases Scalar.smallest? (Arrangement.row k (t.arrangement sr)) with
    | none => exact still
    | some leftmost =>
      by_cases less : leftmost < rightmost + 2.0 * h
      · simp only [if_pos less]
        refine ⟨_, t.modify_shifted right _, ?_⟩
        rw [arrangement_shiftedTo spans sib.distinctRight, spans.moved_arrangement]
      · simp only [if_neg less]
        exact still

/-- Level after level the two subtrees are separated as their arrangements are. -/
theorem separateLevels (sib : t.Siblings above left right sl sr) (h : K) (steps k : Nat)
    (enough : min sl.height sr.height ≤ k + steps) :
    ∃ z, Tree.separateLevels h left right steps t (sl.level k) (sr.level k) =
        t.modify right (Node.shiftedTo z) ∧
      (t.modify right (Node.shiftedTo z)).arrangement sr =
        (List.range' k (min sl.height sr.height - k)).foldl
          (Arrangement.separateLevel h (t.arrangement sl)) (t.arrangement sr) := by
  have still (t : Tree K) {k : Nat} (ended : min sl.height sr.height ≤ k) :
      ∃ z, t = t.modify right (Node.shiftedTo z) ∧
        (t.modify right (Node.shiftedTo z)).arrangement sr =
          (List.range' k (min sl.height sr.height - k)).foldl
            (Arrangement.separateLevel h (t.arrangement sl)) (t.arrangement sr) := by
    refine ⟨t.shiftAt right, (t.modify_shiftedTo_shiftAt right).symm, ?_⟩
    rw [modify_shiftedTo_shiftAt, Nat.sub_eq_zero_of_le ended]
    rfl
  have ended_iff (k : Nat) : ((sl.level k).isEmpty || (sr.level k).isEmpty) = true ↔
      min sl.height sr.height ≤ k := by
    rw [Bool.or_eq_true, List.isEmpty_iff, List.isEmpty_iff, Shape.level_eq_nil_iff,
      Shape.level_eq_nil_iff]
    omega
  induction steps generalizing t k with
  | zero => exact still t enough
  | succ steps ih =>
    rw [Tree.separateLevels]
    by_cases ended : min sl.height sr.height ≤ k
    · rw [if_pos ((ended_iff k).mpr ended)]
      exact still t ended
    · obtain ⟨z, step, moved⟩ := sib.separateLevel h k
      have sib' := sib.shiftedTo z
      obtain ⟨z', run, moved'⟩ := ih sib' (k + 1) (by omega)
      rw [if_neg (mt (ended_iff k).mp ended)]
      simp only [step]
      rw [sib'.threadedLeft.spans.nextLevel_level, sib'.threadedRight.spans.nextLevel_level, run]
      rw [modify_modify] at moved' ⊢
      refine ⟨z', rfl, moved'.trans ?_⟩
      rw [sib.arrangement_left, moved,
        show min sl.height sr.height - k = min sl.height sr.height - (k + 1) + 1 by omega,
        List.range'_succ, List.foldl_cons]

/-- Where the parent of two siblings is put, and what has changed then. -/
theorem middleX (sib : t.Siblings above left right sl sr) (h : K) :
    ∃ z, t.middleX h left right = (t.modify right (Node.shiftedTo z),
        Arrangement.middle (t.arrangement sl)
          ((t.modify right (Node.shiftedTo z)).arrangement sr)) ∧
      (t.modify right (Node.shiftedTo z)).arrangement sr =
        Arrangement.separate h (t.arrangement sl) (t.arrangement sr) := by
  have spansLeft := sib.threadedLeft.spans
  have spansRight := sib.threadedRight.spans
  have enough : min sl.height sr.height ≤ 0 + t.size := by
    have := spansLeft.size_le sib.distinctLeft
    have := sl.height_le_size
    omega
  obtain ⟨z, run, moved⟩ := sib.separateLevels h t.size 0 enough
  have sib' := sib.shiftedTo z
  refine ⟨z, ?_, ?_⟩
  · rw [Shape.level_zero, Shape.level_zero, spansLeft.root?, spansRight.root?] at run
    rw [Tree.middleX, show [left] = (some left).toList from rfl,
      show [right] = (some right).toList from rfl, run, Arrangement.middle,
      ← sib.arrangement_left z, sib'.threadedLeft.spans.top_arrangement,
      sib'.threadedRight.spans.top_arrangement]
  · rw [moved, Arrangement.separate, Nat.sub_zero, ← List.range_eq_range', arrangement, arrangement,
      Shape.height_map, Shape.height_map]

end Siblings

end Tree

end TreeDiagram
