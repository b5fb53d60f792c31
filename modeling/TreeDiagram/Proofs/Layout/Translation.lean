import Mathlib.Tactic.Ring
import TreeDiagram.Proofs.Layout.Picture
/-!
# Subtrees of one form are drawn alike

How the nodes of a subtree stand to each other follows from its form alone: from which of its nodes
have a child on which side. Wherever two subtrees of one form hang, in one tree or in two, one of
them is drawn as the other one, moved as a whole. A subtree is thus drawn as if it were a tree of
its own, as many levels further down as its top is below the root.
-/

namespace TreeDiagram

/-- Two spots with the same places. -/
def Spot.SamePlace {K : Type} (s s' : Spot K) : Prop :=
  s.x = s'.x ∧ s.shift = s'.shift

namespace Arrangement

variable {K : Type} [Scalar K] {a b a' b' : Arrangement K}

/-- Two arrangements of one form with the same places. -/
abbrev SamePlaces (a b : Arrangement K) : Prop := Shape.Forall₂ Spot.SamePlace a b

namespace SamePlaces

theorem row_eq (same : SamePlaces a b) (k : Nat) : row k a = row k b := by
  induction same generalizing k with
  | empty => rfl
  | node spots _ _ ihl ihr =>
    cases k with
    | zero => simp only [row, spots.1, spots.2]
    | succ k => simp only [row, ihl, ihr, spots.2]

theorem top_eq (same : SamePlaces a b) : top a = top b := by
  cases same with
  | empty => rfl
  | node spots => simp only [top, spots.1, spots.2]

theorem moved (same : SamePlaces a b) (d : K) : SamePlaces (a.moved d) (b.moved d) := by
  cases same with
  | empty => exact .empty
  | node spots left right => exact .node ⟨spots.1, congrArg (· + d) spots.2⟩ left right

theorem separateLevel (left : SamePlaces a b) (right : SamePlaces a' b') (h : K) (k : Nat) :
    SamePlaces (separateLevel h a a' k) (separateLevel h b b' k) := by
  unfold Arrangement.separateLevel
  rw [left.row_eq, right.row_eq]
  split
  · dsimp only
    split
    · exact right.moved _
    · exact right
  · exact right

theorem separate (left : SamePlaces a b) (right : SamePlaces a' b') (h : K) :
    SamePlaces (separate h a a') (separate h b b') := by
  unfold Arrangement.separate
  rw [left.height_eq, right.height_eq]
  generalize List.range (min b.height b'.height) = levels
  induction levels generalizing a' b' with
  | nil => exact right
  | cons k later ih => exact ih (left.separateLevel right h k)

theorem join (left : SamePlaces a b) (right : SamePlaces a' b') (h : K) (i j : Nat) :
    SamePlaces (join h i a a') (join h j b b') := by
  have left' := left
  have right' := right
  cases left with
  | empty =>
    cases right with
    | empty => exact .node ⟨rfl, rfl⟩ .empty .empty
    | node spots => exact .node ⟨congrArg (· - h) spots.1, rfl⟩ .empty right'
  | node spots =>
    cases right with
    | empty => exact .node ⟨congrArg (· + h) spots.1, rfl⟩ left' .empty
    | node spots' =>
      have apart := left'.separate right' h
      refine .node ⟨?_, rfl⟩ left' apart
      simp only [middle, left'.top_eq, apart.top_eq]

end SamePlaces

/-- The places in an arrangement follow from the form of the tree. -/
theorem samePlaces_ofShape {s s' : Shape Nat} (form : Shape.Forall₂ (fun _ _ => True) s s')
    (h : K) : SamePlaces (ofShape h s) (ofShape h s') := by
  induction form with
  | empty => exact .empty
  | node _ _ _ ihl ihr => exact ihl.join ihr h _ _

end Arrangement

namespace Layout

/-- What is placed for two arrangements with the same places differs by one distance in each
direction. -/
theorem forall₂_placed {a b : Arrangement Rat} (same : a.SamePlaces b)
    (labelAt labelAt' : Nat → String) (v : Rat) (shift shift' : Rat) (depth depth' : Nat)
    (parent parent' : Option Nat) (here here' : Nat) : Shape.Forall₂
      (fun n n' => n.x = n'.x + (shift - shift') ∧ n.y = n'.y + (depth - depth') * v)
      (placed labelAt v a shift depth parent here)
      (placed labelAt' v b shift' depth' parent' here') := by
  induction same generalizing shift shift' depth depth' parent parent' here here' with
  | empty => exact .empty
  | @node s s' l r l' r' spots left right ihl ihr =>
    obtain ⟨x, own⟩ := spots
    have shifts : s.shift + shift - (s'.shift + shift') = shift - shift' := by rw [own]; ring
    have levels : ((depth + 1 : Nat) - (depth' + 1 : Nat) : Rat) = depth - depth' := by
      push_cast
      ring
    refine .node ⟨?_, ?_⟩ ?_ ?_
    · simp only [x, own]
      ring
    · simp only
      ring
    · simpa only [shifts, levels] using ihl (s.shift + shift) (s'.shift + shift') (depth + 1)
        (depth' + 1) (some here) (some here') (here + 1) (here' + 1)
    · simpa only [shifts, levels] using ihr (s.shift + shift) (s'.shift + shift') (depth + 1)
        (depth' + 1) (some here) (some here') (here + 1 + l.size) (here' + 1 + l'.size)

/-- Whether there is a layout does not depend on the tree, as long as it has a root. -/
theorem exists_compute {K : Type} [Scalar K] {t : Tree K} (t' : Tree K) {radius : K} {style : Style}
    {factors : LayoutFactors K} {layout : Layout K}
    (laid : compute t radius style factors = .ok layout) (rooted : t'.root ≠ none) :
    ∃ layout', compute t' radius style factors = .ok layout' ∧
      layout'.horizontalSpacing = layout.horizontalSpacing ∧
      layout'.verticalSpacing = layout.verticalSpacing := by
  unfold compute at laid ⊢
  split at laid
  · cases laid
  · split at laid
    · next valid =>
      cases laid
      rw [if_neg (by simpa using rooted), if_pos valid]
      exact ⟨_, rfl, rfl, rfl⟩
    · cases laid

/-- What one layout places below a node is what another one places below a node, moved. -/
def Translated (t : Tree Rat) (layout : Layout Rat) (i : Nat) (t' : Tree Rat)
    (layout' : Layout Rat) (i' : Nat) (dx dy : Rat) : Prop :=
  ∀ path j j', t.follow? i path = some j → t'.follow? i' path = some j' →
    ∃ n n', layout.nodeAt? j = some n ∧ layout'.nodeAt? j' = some n' ∧
      n.x = n'.x + dx ∧ n.y = n'.y + dy

variable {t t' : Tree Rat} {radius : Rat} {style : Style} {factors : LayoutFactors Rat}
  {layout layout' : Layout Rat}

theorem translated_of_sameForm (wf : t.WellFormed) (wf' : t'.WellFormed)
    (laid : compute t radius style factors = .ok layout)
    (laid' : compute t' radius style factors = .ok layout') {root root' i i' : Nat}
    (isRoot : t.root = some root) (isRoot' : t'.root = some root') {path path' : List Side}
    (leads₀ : t.follow? root path = some i) (leads₀' : t'.follow? root' path' = some i')
    (form : t.SameForm i t' i') : ∃ dx, Translated t layout i t' layout' i' dx
      ((path.length - path'.length) * layout.verticalSpacing) := by
  obtain ⟨_, again, horizontal, vertical⟩ := exists_compute t' laid (by simp [isRoot'])
  cases again.symm.trans laid'
  obtain ⟨s, shift, parent, here, spans, below⟩ := picture_subtree wf layout isRoot leads₀
  obtain ⟨s', shift', parent', here', spans', below'⟩ :=
    picture_subtree wf' layout' isRoot' leads₀'
  have places := Arrangement.samePlaces_ofShape ((Tree.sameForm_iff spans spans').mp form)
    layout.horizontalSpacing
  have moved := forall₂_placed places t.labelAt t'.labelAt layout.verticalSpacing shift shift'
    path.length path'.length parent parent' here here'
  rw [← below, ← vertical, ← horizontal, ← below', vertical] at moved
  refine ⟨shift - shift', fun further j j' leads leads' => ?_⟩
  have whole := Tree.follow?_append (t := t) root path further
  have whole' := Tree.follow?_append (t := t') root' path' further
  rw [leads₀, Option.bind_some, leads] at whole
  rw [leads₀', Option.bind_some, leads'] at whole'
  obtain ⟨n, found, placed⟩ := exists_nodeAt? wf laid isRoot whole
  obtain ⟨n', found', placed'⟩ := exists_nodeAt? wf' laid' isRoot' whole'
  rw [Shape.subtree_append] at found found'
  exact ⟨n, n', placed, placed', (moved.subtree further).of_root? found found'⟩

/-- A subtree is drawn as it would be if its top were the root, moved down by the levels above it.
Two subtrees of one form, in one tree or in two, are drawn alike but for a move of the whole. -/
theorem subtrees_drawn_alike (wf : t.WellFormed)
    (laid : compute t radius style factors = .ok layout) {root i : Nat}
    (isRoot : t.root = some root) {path : List Side} (leads : t.follow? root path = some i) :
    (∃ own top top', compute (t.setRoot i) radius style factors = .ok own ∧
      layout.nodeAt? i = some top ∧ own.nodeAt? i = some top' ∧
      ∀ j, t.Reaches i j → ∃ n n', layout.nodeAt? j = some n ∧ own.nodeAt? j = some n' ∧
        n.x - top.x = n'.x - top'.x ∧ n.y = n'.y + path.length * layout.verticalSpacing) ∧
    ∀ t' layout' i', t'.WellFormed → compute t' radius style factors = .ok layout' →
      t'.Reachable i' → t.SameForm i t' i' →
      ∃ dx dy, Translated t layout i t' layout' i' dx dy := by
  have reachable : t.Reachable i := ⟨root, isRoot, Tree.reaches_iff_follow?.mpr ⟨path, leads⟩⟩
  constructor
  · obtain ⟨own, laid', -⟩ := exists_compute (t.setRoot i) laid (Option.some_ne_none i)
    have links := t.sameLinks_setRoot i
    have form : t.SameForm i (t.setRoot i) i := fun below => by rw [links.follow?_eq]
    obtain ⟨dx, moved⟩ := translated_of_sameForm wf (wf.setRoot reachable) laid laid' isRoot rfl
      leads (Tree.follow?_nil i) form
    rw [List.length_nil, Nat.cast_zero, sub_zero, Translated, ← links.follow?_eq] at moved
    obtain ⟨top, top', placed, placed', x, -⟩ := moved [] i i rfl rfl
    refine ⟨own, top, top', laid', placed, placed', fun j below => ?_⟩
    obtain ⟨further, leads'⟩ := Tree.reaches_iff_follow?.mp below
    obtain ⟨n, n', placedn, placedn', xn, yn⟩ := moved further j j leads' leads'
    exact ⟨n, n', placedn, placedn', by linarith, yn⟩
  · rintro t' layout' i' wf' laid' ⟨root', isRoot', path_⟩ form
    obtain ⟨path', leads'⟩ := Tree.reaches_iff_follow?.mp path_
    obtain ⟨dx, moved⟩ := translated_of_sameForm wf wf' laid laid' isRoot isRoot' leads leads' form
    exact ⟨dx, _, moved⟩

end Layout

/-- Two subtrees of one form, whose nodes are stored in different orders. -/
def Tree.twins : Tree Rat :=
  { nodes :=
      #[{ Node.new "top" with left := some 1, right := some 4 },
        { Node.new "elder" with left := some 2, right := some 3, parent := some 0 },
        { Node.new "a" with parent := some 1 },
        { Node.new "b" with parent := some 1 },
        { Node.new "younger" with left := some 6, right := some 5, parent := some 0 },
        { Node.new "c" with parent := some 4 },
        { Node.new "d" with parent := some 4 }]
    root := some 0 }

namespace Layout

/-- The subtrees of the twins are drawn alike. -/
theorem subtrees_drawn_alike_twins :
    Tree.twins.WellFormed ∧ Tree.twins.follow? 0 [.right] = some 4 ∧
      Tree.twins.SameForm 4 Tree.twins 1 ∧
      ∃ layout, compute Tree.twins 10 {} {} = .ok layout ∧
        (∃ own, compute (Tree.twins.setRoot 4) 10 {} {} = .ok own) ∧
        ∃ dx dy, Translated Tree.twins layout 4 Tree.twins layout 1 dx dy := by
  have elder : Tree.twins.Spans (some 1) (.node 1 (.leaf 2) (.leaf 3)) :=
    .node rfl (.node rfl .empty .empty) (.node rfl .empty .empty)
  have younger : Tree.twins.Spans (some 4) (.node 4 (.leaf 6) (.leaf 5)) :=
    .node rfl (.node rfl .empty .empty) (.node rfl .empty .empty)
  have wf : Tree.twins.WellFormed :=
    (Tree.Spans.node rfl elder younger).wellFormed (by simp [Tree.twins]) (by decide)
  have form : Tree.twins.SameForm 4 Tree.twins 1 :=
    (Tree.sameForm_iff younger elder).mpr
      (.node trivial (.node trivial .empty .empty) (.node trivial .empty .empty))
  obtain ⟨layout, laid, -⟩ :=
    exists_compute Tree.twins compute_cousins (Option.some_ne_none 0)
  have isRoot : Tree.twins.root = some 0 := rfl
  have leads : Tree.twins.follow? 0 [.right] = some 4 := rfl
  obtain ⟨⟨own, _, _, alone, _⟩, alike⟩ := subtrees_drawn_alike wf laid isRoot leads
  have reachable : Tree.twins.Reachable 1 := ⟨0, rfl, .single ⟨.left, _, rfl, rfl⟩⟩
  exact ⟨wf, leads, form, layout, laid, ⟨own, alone⟩, alike _ _ 1 wf laid reachable form⟩

end Layout

end TreeDiagram
