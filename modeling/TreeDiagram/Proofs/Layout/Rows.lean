import TreeDiagram.Layout.Arrangement
import TreeDiagram.Proofs.Exact
/-!
# Keeping two subtrees apart

The right one of two arrangements is moved by the least distance, not less than zero, that leaves
`2 * h` between the two on every level. What a parent is put over is therefore its left arrangement
as it was and its right one moved by that distance, and the rows of a whole arrangement are clear of
each other below every node.
-/

namespace TreeDiagram

namespace Arrangement

theorem moved_zero (a : Arrangement Rat) : a.moved 0 = a := by
  cases a with
  | empty => rfl
  | node s l r => simp [moved]

theorem moved_moved (a : Arrangement Rat) (d e : Rat) : (a.moved d).moved e = a.moved (d + e) := by
  cases a with
  | empty => rfl
  | node s l r => simp [moved, add_assoc]

@[simp] theorem height_moved (a : Arrangement Rat) (d : Rat) : (a.moved d).height = a.height := by
  cases a <;> rfl

theorem row_moved (k : Nat) (a : Arrangement Rat) (d : Rat) :
    row k (a.moved d) = (row k a).map (· + d) := by
  cases a with
  | empty => cases k <;> rfl
  | node s l r => cases k <;> simp [moved, row, add_assoc]

theorem mem_row_moved {k : Nat} {a : Arrangement Rat} {d y : Rat} :
    y ∈ row k (a.moved d) ↔ ∃ x ∈ row k a, x + d = y := by
  rw [row_moved, List.mem_map]

/-- There is something on a level exactly if the arrangement reaches it. -/
theorem row_eq_nil_iff {k : Nat} {a : Arrangement Rat} : row k a = [] ↔ a.height ≤ k := by
  induction a generalizing k with
  | empty => simp [row, Shape.height]
  | node s l r ihl ihr =>
    cases k with
    | zero => simp [row, Shape.height]
    | succ k => simp [row, Shape.height, ihl, ihr]

/-- Two arrangements keep their distance on a level. -/
def ClearAt (h : Rat) (left right : Arrangement Rat) (k : Nat) : Prop :=
  ∀ x ∈ row k left, ∀ y ∈ row k right, x + 2 * h ≤ y

/-- Two arrangements keep their distance on every level. -/
def Clear (h : Rat) (left right : Arrangement Rat) : Prop :=
  ∀ k, ClearAt h left right k

/-- Below every node the left arrangement keeps its distance to the right one. -/
def Separated (h : Rat) : Arrangement Rat → Prop
  | .empty => True
  | .node _ l r => Clear h l r ∧ Separated h l ∧ Separated h r

theorem ClearAt.moved {h : Rat} {left right : Arrangement Rat} {k : Nat} {d : Rat}
    (clear : ClearAt h left right k) (nonneg : 0 ≤ d) : ClearAt h left (right.moved d) k := by
  intro x hx y hy
  obtain ⟨y, hy', rfl⟩ := mem_row_moved.mp hy
  linarith [clear x hx y hy']

/-- On one level the right arrangement is moved no further than it must be. -/
theorem separateLevel_least (h : Rat) (left right : Arrangement Rat) (k : Nat) :
    ∃ d, IsLeast {d | 0 ≤ d ∧ ClearAt h left (right.moved d) k} d ∧
      separateLevel h left right k = right.moved d := by
  have nothing (idle : ∀ d, 0 ≤ d → ClearAt h left (right.moved d) k) :
      ∃ d, IsLeast {d | 0 ≤ d ∧ ClearAt h left (right.moved d) k} d ∧
        right = right.moved d :=
    ⟨0, ⟨⟨le_refl 0, idle 0 (le_refl 0)⟩, fun d hd => hd.1⟩, (moved_zero right).symm⟩
  unfold separateLevel
  cases rightmost : Scalar.largest? (row k left) with
  | none =>
    apply nothing
    intro d _ x hx
    simp [Scalar.largest?_eq_none.mp rightmost] at hx
  | some most =>
    cases leftmost : Scalar.smallest? (row k right) with
    | none =>
      apply nothing
      intro d _ x _ y hy
      rw [row_moved, Scalar.smallest?_eq_none.mp leftmost] at hy
      simp at hy
    | some least =>
      obtain ⟨mostIn, mostBound⟩ := Scalar.isGreatest_largest? rightmost
      obtain ⟨leastIn, leastBound⟩ := Scalar.isLeast_smallest? leftmost
      simp only [Scalar.two_literal]
      split
      · next less =>
        refine ⟨most + 2 * h - least, ⟨⟨by linarith, ?_⟩, ?_⟩, rfl⟩
        · intro x hx y hy
          obtain ⟨y, hy', rfl⟩ := mem_row_moved.mp hy
          linarith [mostBound hx, leastBound hy']
        · rintro d ⟨-, clear⟩
          linarith [clear most mostIn (least + d) (mem_row_moved.mpr ⟨least, leastIn, rfl⟩)]
      · next notLess =>
        apply nothing
        intro d nonneg x hx y hy
        obtain ⟨y, hy', rfl⟩ := mem_row_moved.mp hy
        linarith [mostBound hx, leastBound hy']

/-- Level after level the moves add up to the least one that is enough for all levels. -/
theorem foldl_separateLevel_least (h : Rat) (left right : Arrangement Rat) (levels : List Nat) :
    ∃ d, IsLeast {d | 0 ≤ d ∧ ∀ k ∈ levels, ClearAt h left (right.moved d) k} d ∧
      levels.foldl (separateLevel h left) right = right.moved d := by
  induction levels generalizing right with
  | nil => exact ⟨0, ⟨⟨le_refl 0, by simp⟩, fun d hd => hd.1⟩, (moved_zero right).symm⟩
  | cons k levels ih =>
    obtain ⟨d, ⟨⟨nonneg, clear⟩, least⟩, step⟩ := separateLevel_least h left right k
    obtain ⟨e, ⟨⟨nonneg', clear'⟩, least'⟩, run⟩ := ih (right.moved d)
    rw [List.foldl_cons, step, run, moved_moved]
    refine ⟨d + e, ⟨⟨add_nonneg nonneg nonneg', ?_⟩, ?_⟩, rfl⟩
    · intro j member
      rw [← moved_moved]
      rcases List.mem_cons.mp member with rfl | member
      · exact clear.moved nonneg'
      · exact clear' j member
    · rintro f ⟨hf, all⟩
      have first : d ≤ f := least ⟨hf, all k (by simp)⟩
      have rest : e ≤ f - d := by
        refine least' ⟨by linarith, fun j member => ?_⟩
        rw [moved_moved, add_sub_cancel]
        exact all j (by simp [member])
      linarith

/-- Where one of two arrangements ends they keep their distance. -/
theorem clearAt_of_height {h : Rat} {left right : Arrangement Rat} {k : Nat}
    (ended : min left.height right.height ≤ k) : ClearAt h left right k := by
  intro x hx y hy
  rcases min_le_iff.mp ended with ended | ended
  · rw [row_eq_nil_iff.mpr ended] at hx
    simp at hx
  · rw [row_eq_nil_iff.mpr ended] at hy
    simp at hy

/-- The right arrangement is moved by the least distance that keeps it clear of the left one. -/
theorem separate_least (h : Rat) (left right : Arrangement Rat) :
    ∃ d, IsLeast {d | 0 ≤ d ∧ Clear h left (right.moved d)} d ∧
      separate h left right = right.moved d := by
  have levels (d : Rat) : (∀ k ∈ List.range (min left.height right.height),
      ClearAt h left (right.moved d) k) ↔ Clear h left (right.moved d) := by
    constructor
    · intro shared k
      by_cases reached : k < min left.height right.height
      · exact shared k (List.mem_range.mpr reached)
      · exact clearAt_of_height (by rw [height_moved]; exact Nat.le_of_not_lt reached)
    · exact fun all k _ => all k
  have least := foldl_separateLevel_least h left right
    (List.range (min left.height right.height))
  simp only [levels] at least
  exact least

/-- Without a left arrangement there is nothing to keep clear of. -/
theorem clear_empty_left (h : Rat) (right : Arrangement Rat) : Clear h .empty right := by
  intro k x hx
  simp [row] at hx

theorem clear_empty_right (h : Rat) (left : Arrangement Rat) : Clear h left .empty := by
  intro k x _ y hy
  simp [row] at hy

/-- What is put below a parent: the left arrangement as it is, and the right one moved by the least
distance that keeps it clear. The parent of nothing stands at zero. -/
theorem join_spec (h : Rat) (i : Nat) (left right : Arrangement Rat) :
    ∃ x d, IsLeast {d | 0 ≤ d ∧ Clear h left (right.moved d)} d ∧
      (left = .empty → right = .empty → x = 0) ∧
      join h i left right = .node ⟨i, x, 0⟩ left (right.moved d) := by
  have still (clear : ∀ d, Clear h left (right.moved d)) :
      IsLeast {d | 0 ≤ d ∧ Clear h left (right.moved d)} 0 :=
    ⟨⟨le_refl 0, clear 0⟩, fun d hd => hd.1⟩
  cases left with
  | empty =>
    have clear := still fun d => clear_empty_left h _
    cases right with
    | empty => exact ⟨0, 0, clear, by simp, by simp [join, moved]⟩
    | node s l r =>
      refine ⟨s.x - h, 0, clear, by simp, ?_⟩
      rw [moved_zero]
      simp [join]
  | node s l r =>
    cases right with
    | empty =>
      exact ⟨s.x + h, 0, still fun d => clear_empty_right h _, by simp, by simp [join, moved]⟩
    | node s' l' r' =>
      obtain ⟨d, least, apart⟩ := separate_least h (.node s l r) (.node s' l' r')
      refine ⟨middle (.node s l r) (moved d (.node s' l' r')), d, least, by simp, ?_⟩
      simp only [join, apart, Scalar.zero_literal]

theorem separated_moved {h d : Rat} {a : Arrangement Rat} :
    Separated h (a.moved d) ↔ Separated h a := by
  cases a <;> rfl

/-- The arrangement of a tree keeps the distance between all subtrees side by side. -/
theorem separated_ofShape (h : Rat) (s : Shape Nat) : Separated h (ofShape h s) := by
  induction s with
  | empty => trivial
  | node i l r ihl ihr =>
    obtain ⟨x, d, ⟨⟨-, clear⟩, -⟩, -, joined⟩ := join_spec h i (ofShape h l) (ofShape h r)
    rw [ofShape, joined]
    exact ⟨clear, ihl, separated_moved.mpr ihr⟩

end Arrangement

end TreeDiagram
