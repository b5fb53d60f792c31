import Mathlib.Data.Finset.Max
import Mathlib.Data.Set.Finite.Lattice
import Mathlib.Tactic.Ring
import TreeDiagram.Proofs.Layout.Placement
import TreeDiagram.Proofs.Layout.Upward
/-!
# The least shift

Before the parent of two subtrees is put over them, the right one lacks a certain distance on every
level that both of them reach. It is shifted by the greatest of these, if that is not less than
zero, and so by the least distance that is enough on all levels.
-/

namespace TreeDiagram

namespace Arrangement

/-- How far the right arrangement would have to be moved for its distance to the left one on a
level. -/
def Shortfall (h : Rat) (left right : Arrangement Rat) (k : Nat) (d : Rat) : Prop :=
  ∃ most least, IsGreatest {x | x ∈ row k left} most ∧ IsLeast {x | x ∈ row k right} least ∧
    most + 2 * h - least = d

variable {h : Rat} {left right : Arrangement Rat}

theorem Shortfall.unique {k : Nat} {d e : Rat} (hd : Shortfall h left right k d)
    (he : Shortfall h left right k e) : d = e := by
  obtain ⟨most, least, greatest, smallest, rfl⟩ := hd
  obtain ⟨most', least', greatest', smallest', rfl⟩ := he
  rw [greatest.unique greatest', smallest.unique smallest']

theorem lt_height_of_mem_row {k : Nat} {a : Arrangement Rat} {x : Rat} (member : x ∈ row k a) :
    k < a.height := by
  by_contra ended
  rw [row_eq_nil_iff.mpr (Nat.le_of_not_lt ended)] at member
  cases member

/-- On every level that both arrangements reach. -/
theorem exists_shortfall (h : Rat) {k : Nat} (reached : k < min left.height right.height) :
    ∃ d, Shortfall h left right k d := by
  have row_ne_nil {a : Arrangement Rat} (reached : k < a.height) : row k a ≠ [] :=
    fun nothing => absurd (row_eq_nil_iff.mp nothing) (Nat.not_le_of_lt reached)
  rw [lt_min_iff] at reached
  obtain ⟨most, greatest⟩ := Option.ne_none_iff_exists'.mp
    (mt Scalar.largest?_eq_none.mp (row_ne_nil reached.1))
  obtain ⟨least, smallest⟩ := Option.ne_none_iff_exists'.mp
    (mt Scalar.smallest?_eq_none.mp (row_ne_nil reached.2))
  exact ⟨_, most, least, Scalar.isGreatest_largest? greatest, Scalar.isLeast_smallest? smallest,
    rfl⟩

/-- A move is enough if it is not less than what is lacking on any level. -/
theorem clear_moved_iff {e : Rat} :
    Clear h left (right.moved e) ↔ ∀ k d, Shortfall h left right k d → d ≤ e := by
  constructor
  · rintro clear k _ ⟨most, least, ⟨here, -⟩, ⟨there, -⟩, rfl⟩
    linarith [clear k most here (least + e) (mem_row_moved.mpr ⟨least, there, rfl⟩)]
  · intro enough k x hx y hy
    obtain ⟨y, hy', rfl⟩ := mem_row_moved.mp hy
    have reached := lt_min (lt_height_of_mem_row hx) (lt_height_of_mem_row hy')
    obtain ⟨_, most, least, greatest, smallest, rfl⟩ := exists_shortfall h reached
    linarith [enough k _ ⟨most, least, greatest, smallest, rfl⟩, greatest.2 hx, smallest.2 hy']

theorem finite_shortfalls (h : Rat) (left right : Arrangement Rat) :
    {d | ∃ k, Shortfall h left right k d}.Finite := by
  refine ((Set.finite_lt_nat left.height).biUnion (t := fun k => {d | Shortfall h left right k d})
    fun k _ => ?_).subset ?_
  · exact Set.Subsingleton.finite fun d hd e he => Shortfall.unique hd he
  · rintro d ⟨k, lacking⟩
    obtain ⟨most, -, ⟨member, -⟩, -⟩ := id lacking
    exact Set.mem_biUnion (lt_height_of_mem_row member) lacking

/-- The least move that is enough is the greatest distance lacking on a level, or zero. -/
theorem separate_greatest (h : Rat) (left right : Arrangement Rat) :
    ∃ d, IsGreatest (insert 0 {d | ∃ k, Shortfall h left right k d}) d ∧
      IsLeast {d | 0 ≤ d ∧ Clear h left (right.moved d)} d ∧
      separate h left right = right.moved d := by
  obtain ⟨d, least, apart⟩ := separate_least h left right
  have finite := (finite_shortfalls h left right).insert 0
  have bounds : {d | 0 ≤ d ∧ Clear h left (right.moved d)} =
      upperBounds (insert 0 {d | ∃ k, Shortfall h left right k d}) := by
    ext e
    rw [upperBounds_insert]
    simp only [clear_moved_iff, Set.mem_inter_iff, Set.mem_Ici]
    exact and_congr_right fun _ =>
      ⟨fun enough d ⟨k, lacking⟩ => enough k d lacking,
        fun enough k d lacking => enough ⟨k, lacking⟩⟩
  refine ⟨d, ?_, least, apart⟩
  rw [bounds] at least
  rw [← finite.coe_toFinset, ← Finset.isLUB_iff_isGreatest _ _ (by simp), finite.coe_toFinset]
  exact least

end Arrangement

namespace Tree

/-- How far the subtree below `right` would have to be shifted for its distance to the subtree below
`left` on a level, from where the nodes of both stand now. -/
def Shortfall (h : Rat) (t : Tree Rat) (left right k : Nat) (d : Rat) : Prop :=
  ∃ leftLevel rightLevel most least,
    (t.levelsOf left)[k]? = some leftLevel ∧ (t.levelsOf right)[k]? = some rightLevel ∧
    IsGreatest {x | ∃ i ∈ leftLevel, t.effectiveX left i = x} most ∧
    IsLeast {x | ∃ j ∈ rightLevel, t.effectiveX right j = x} least ∧ most + 2 * h - least = d

/-- Two subtrees keep their distance on every level that both of them reach. -/
def KeepsApart (h : Rat) (t : Tree Rat) (left right : Nat) : Prop :=
  ∀ (k : Nat) (leftLevel rightLevel : List Nat),
    (t.levelsOf left)[k]? = some leftLevel → (t.levelsOf right)[k]? = some rightLevel →
    ∀ i ∈ leftLevel, ∀ j ∈ rightLevel, t.effectiveX left i + 2 * h ≤ t.effectiveX right j

namespace Siblings

variable {t : Tree Rat} {above : Option Nat} {left right : Nat} {sl sr : Shape Nat}

theorem mem_row_left (sib : t.Siblings above left right sl sr) {k : Nat} {x : Rat} :
    x ∈ Arrangement.row k (t.arrangement sl) ↔ ∃ i ∈ sl.level k, t.effectiveX left i = x := by
  rw [← sib.threadedLeft.map_effectiveX sib.distinctLeft, List.mem_map]

theorem mem_row_right (sib : t.Siblings above left right sl sr) {k : Nat} {x : Rat} :
    x ∈ Arrangement.row k (t.arrangement sr) ↔ ∃ j ∈ sr.level k, t.effectiveX right j = x := by
  rw [← sib.threadedRight.map_effectiveX sib.distinctRight, List.mem_map]

theorem shortfall_iff (sib : t.Siblings above left right sl sr) {h : Rat} {k : Nat} {d : Rat} :
    t.Shortfall h left right k d ↔
      Arrangement.Shortfall h (t.arrangement sl) (t.arrangement sr) k d := by
  simp only [Shortfall, Arrangement.Shortfall, sib.mem_row_left, sib.mem_row_right,
    sib.threadedLeft.spans.getElem?_levelsOf sib.distinctLeft,
    sib.threadedRight.spans.getElem?_levelsOf sib.distinctRight]
  constructor
  · rintro ⟨_, _, most, least, ⟨-, rfl⟩, ⟨-, rfl⟩, greatest, smallest, lacking⟩
    exact ⟨most, least, greatest, smallest, lacking⟩
  · rintro ⟨most, least, greatest, smallest, lacking⟩
    obtain ⟨i, hi, -⟩ := greatest.1
    obtain ⟨j, hj, -⟩ := smallest.1
    exact ⟨_, _, most, least, ⟨Shape.lt_height_of_mem_level hi, rfl⟩,
      ⟨Shape.lt_height_of_mem_level hj, rfl⟩, greatest, smallest, lacking⟩

theorem keepsApart_iff (sib : t.Siblings above left right sl sr) {h : Rat} :
    t.KeepsApart h left right ↔ Arrangement.Clear h (t.arrangement sl) (t.arrangement sr) := by
  simp only [KeepsApart, Arrangement.Clear, Arrangement.ClearAt, sib.mem_row_left,
    sib.mem_row_right, sib.threadedLeft.spans.getElem?_levelsOf sib.distinctLeft,
    sib.threadedRight.spans.getElem?_levelsOf sib.distinctRight]
  constructor
  · rintro apart k _ ⟨i, hi, rfl⟩ _ ⟨j, hj, rfl⟩
    exact apart k _ _ ⟨Shape.lt_height_of_mem_level hi, rfl⟩
      ⟨Shape.lt_height_of_mem_level hj, rfl⟩ i hi j hj
  · rintro clear k _ _ ⟨-, rfl⟩ ⟨-, rfl⟩ i hi j hj
    exact clear k _ ⟨i, hi, rfl⟩ _ ⟨j, hj, rfl⟩

theorem arrangement_shifted (sib : t.Siblings above left right sl sr) (d : Rat) :
    (t.modify right (Node.shifted d)).arrangement sr = (t.arrangement sr).moved d := by
  have spans := sib.threadedRight.spans
  rw [modify_shifted, arrangement_shiftedTo spans sib.distinctRight, spans.moved_arrangement]

theorem keepsApart_shifted_iff (sib : t.Siblings above left right sl sr) {h d : Rat} :
    (t.modify right (Node.shifted d)).KeepsApart h left right ↔
      Arrangement.Clear h (t.arrangement sl) ((t.arrangement sr).moved d) := by
  rw [← sib.arrangement_shifted, modify_shifted, (sib.shiftedTo _).keepsApart_iff,
    sib.arrangement_left]

/-- Two siblings are separated by the least shift that is enough, and their parent is put in the
middle. -/
theorem middleX_least (sib : t.Siblings above left right sl sr) (h : Rat) :
    ∃ d, IsGreatest (insert 0 {e | ∃ k, t.Shortfall h left right k e}) d ∧
      t.middleX h left right = (t.modify right (Node.shifted d),
        ((t.xAt left + t.shiftAt left) + (t.xAt right + (t.shiftAt right + d))) / 2) ∧
      IsLeast {e | 0 ≤ e ∧ (t.modify right (Node.shifted e)).KeepsApart h left right} d ∧
      Arrangement.separate h (t.arrangement sl) (t.arrangement sr) =
        (t.arrangement sr).moved d := by
  obtain ⟨d, greatest, least, apart⟩ :=
    Arrangement.separate_greatest h (t.arrangement sl) (t.arrangement sr)
  obtain ⟨z, middle, separated⟩ := sib.middleX h
  have spans := sib.threadedRight.spans
  refine ⟨d, by simpa only [sib.shortfall_iff] using greatest, ?_,
    by simpa only [sib.keepsApart_shifted_iff] using least, apart⟩
  have shift : z = t.shiftAt right + d := by
    have tops := congrArg Arrangement.top (separated.trans apart)
    rw [arrangement_shiftedTo spans sib.distinctRight, spans.moved_arrangement,
      spans.top_shiftedTo, spans.top_shiftedTo] at tops
    exact add_left_cancel tops
  rw [middle, shift, ← modify_shifted, sib.arrangement_shifted, Arrangement.middle,
    sib.threadedLeft.spans.top_arrangement, spans.moved_arrangement, spans.top_shiftedTo,
    Scalar.two_literal]
  congr 1
  ring

end Siblings

variable {t : Tree Rat} {root : Nat} {before after : List Nat} {i left right : Nat}

/-- When the second pass comes to a parent of two, there is a distance lacking on every level that
both subtrees reach. The right subtree is shifted by the greatest of these distances, or not at all
if none is positive, which is the least shift that leaves the two apart; nothing else is changed,
and the parent is put in the middle between its children. The arrangements of the two subtrees are
separated by the same shift. -/
theorem least_shift (wf : t.WellFormed) (isRoot : t.root = some root) (h v : Rat)
    (order : t.postOrder = before ++ i :: after) (isLeft : t.Hangs i .left left)
    (isRight : t.Hangs i .right right) :
    let now := before.foldl (putOver h) (t.assignLevels v root).1
    (∀ k < min (now.levelsOf left).length (now.levelsOf right).length,
      ∃ d, now.Shortfall h left right k d) ∧
    ∃ d, IsGreatest (insert 0 {e | ∃ k, now.Shortfall h left right k e}) d ∧
      now.middleX h left right = (now.modify right (Node.shifted d),
        ((now.xAt left + now.shiftAt left) + (now.xAt right + (now.shiftAt right + d))) / 2) ∧
      IsLeast {e | 0 ≤ e ∧ (now.modify right (Node.shifted e)).KeepsApart h left right} d ∧
      now.putOver h i =
        (now.modify right (Node.shifted d)).modify i (Node.placedAt (now.middleX h left right).2) ∧
      ∃ sl sr, t.Spans (some left) sl ∧ t.Spans (some right) sr ∧
        (∀ k, (sl.level k).map (now.effectiveX left) = (Arrangement.ofShape h sl).row k) ∧
        (∀ k, (sr.level k).map (now.effectiveX right) = (Arrangement.ofShape h sr).row k) ∧
        Arrangement.separate h (Arrangement.ofShape h sl) (Arrangement.ofShape h sr) =
          (Arrangement.ofShape h sr).moved d := by
  intro now
  have ready := wf.ready isRoot v
  have frame : (t.assignLevels v root).1.SameFrame now := sameFrame_foldl_putOver h _ before
  have links : t.SameLinks now := ready.links.trans frame.sameLinks
  obtain ⟨sl, sr, (sib : now.Siblings (some i) left right sl sr), arrangedl, arrangedr⟩ :=
    siblings_before ⟨ready.threaded, wf.nodup_shape, fun _ => ready.unshifted⟩ h
      (wf.postOrder_eq.symm.trans order) (ready.links.hangs_iff.mp isLeft)
      (ready.links.hangs_iff.mp isRight)
  obtain ⟨d, greatest, middle, least, apart⟩ := sib.middleX_least h
  refine ⟨fun k shared => ?_, d, greatest, middle, least, ?_, sl, sr, ?_, ?_, ?_, ?_, ?_⟩
  · rw [sib.threadedLeft.spans.levelsOf_eq sib.distinctLeft,
      sib.threadedRight.spans.levelsOf_eq sib.distinctRight, List.length_map, List.length_map,
      List.length_range, List.length_range] at shared
    simp only [sib.shortfall_iff]
    refine Arrangement.exists_shortfall h ?_
    rwa [arrangement, arrangement, Shape.height_map, Shape.height_map]
  · obtain ⟨n, stored, linkl⟩ := links.hangs_iff.mp isLeft
    have linkr : n.right = some right := (links.hangs_iff.mp isRight).link_eq stored
    rw [middle]
    simp only [putOver, stored, show n.left = some left from linkl, linkr, middle]
  · exact links.symm.spans sib.threadedLeft.spans
  · exact links.symm.spans sib.threadedRight.spans
  · rw [← arrangedl]
    exact sib.threadedLeft.map_effectiveX sib.distinctLeft
  · rw [← arrangedr]
    exact sib.threadedRight.map_effectiveX sib.distinctRight
  · rw [← arrangedl, ← arrangedr]
    exact apart

/-- The aunt is shifted by thirty-one, which is what the nephew lacks beside the niece. -/
theorem least_shift_cousins :
    cousins.WellFormed ∧ cousins.root = some 0 ∧ cousins.postOrder = [2, 1, 4, 3] ++ 0 :: [] ∧
      cousins.Hangs 0 .left 1 ∧ cousins.Hangs 0 .right 3 ∧
      let now := [2, 1, 4, 3].foldl (putOver (31 / 2)) (cousins.assignLevels 20 0).1
      now.middleX (31 / 2) 1 3 = (now.modify 3 (Node.shifted 31), 31 / 2) ∧
        IsLeast {e | 0 ≤ e ∧ (now.modify 3 (Node.shifted e)).KeepsApart (31 / 2) 1 3} 31 := by
  have order : cousins.postOrder = [2, 1, 4, 3] ++ 0 :: [] := by decide +kernel
  have isLeft : cousins.Hangs 0 .left 1 := ⟨_, rfl, rfl⟩
  have isRight : cousins.Hangs 0 .right 3 := ⟨_, rfl, rfl⟩
  obtain ⟨-, d, -, middle, least, -⟩ :=
    least_shift wellFormed_cousins rfl (31 / 2) 20 order isLeft isRight
  have places : let now := [2, 1, 4, 3].foldl (putOver (31 / 2)) (cousins.assignLevels 20 0).1
      (now.middleX (31 / 2) 1 3).2 = 31 / 2 ∧ now.xAt 1 + now.shiftAt 1 = -31 / 2 ∧
        now.xAt 3 = 31 / 2 ∧ now.shiftAt 3 = 0 := by
    decide +kernel
  obtain ⟨between, uncle, aunt, unshifted⟩ := places
  rw [middle, uncle, aunt, unshifted] at between
  have shift : d = 31 := by linarith
  subst shift
  rw [uncle, aunt, unshifted] at middle
  exact ⟨wellFormed_cousins, rfl, order, isLeft, isRight, middle.trans (by norm_num), least⟩

end Tree

end TreeDiagram
