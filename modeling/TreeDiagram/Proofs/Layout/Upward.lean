import TreeDiagram.Proofs.Layout.Siblings
/-!
# The second pass

Going up from the leaves leaves at the nodes of every subtree the places and shifts of its
arrangement. Links, parents and heights are kept, and so are all nodes outside the subtree.
-/

namespace TreeDiagram

namespace Tree

variable {K : Type} [Scalar K]

theorem sameFrame_separateLevel (h : K) (left right : Nat) (t : Tree K)
    (leftLevel rightLevel : List Nat) :
    t.SameFrame (t.separateLevel h left right leftLevel rightLevel) := by
  unfold separateLevel
  split
  · dsimp only
    split
    · exact .modify t right fun _ => rfl
    · exact .refl t
  · exact .refl t

theorem sameFrame_separateLevels (h : K) (left right steps : Nat) (t : Tree K)
    (leftLevel rightLevel : List Nat) :
    t.SameFrame (separateLevels h left right steps t leftLevel rightLevel) := by
  induction steps generalizing t leftLevel rightLevel with
  | zero => exact .refl t
  | succ steps ih =>
    rw [separateLevels]
    split
    · exact .refl t
    · exact (sameFrame_separateLevel h left right t leftLevel rightLevel).trans (ih _ _ _)

theorem sameFrame_putOver (h : K) (t : Tree K) (i : Nat) : t.SameFrame (t.putOver h i) := by
  have placed (t : Tree K) (x : K) : t.SameFrame (t.modify i (Node.placedAt x)) :=
    .modify t i fun _ => rfl
  unfold putOver
  cases t.node? i with
  | none => exact .refl t
  | some n =>
    obtain ⟨label, left, right, parent, x, y, shift⟩ := n
    cases left with
    | none => cases right <;> exact placed t _
    | some left =>
      cases right with
      | none => exact placed t _
      | some right => exact (sameFrame_separateLevels h left right _ t _ _).trans (placed _ _)

theorem sameFrame_foldl_putOver (h : K) (t : Tree K) (order : List Nat) :
    t.SameFrame (order.foldl (putOver h) t) := by
  induction order generalizing t with
  | nil => exact .refl t
  | cons i order ih => exact (sameFrame_putOver h t i).trans (ih _)

/-- A subtree as the first pass leaves it: its parents are known, and no node is shifted. -/
structure Fresh (t : Tree K) (above link : Option Nat) (s : Shape Nat) : Prop where
  threaded : t.Threaded above link s
  distinct : s.preOrder.Nodup
  unshifted : ∀ i ∈ s.preOrder, t.shiftAt i = 0.0

namespace Fresh

variable {t t' : Tree K} {above link : Option Nat} {s : Shape Nat}

/-- It stays so while other nodes are changed. -/
theorem of_same (fresh : t.Fresh above link s) (same : ∀ i ∈ s.preOrder, t'.node? i = t.node? i) :
    t'.Fresh above link s where
  threaded := fresh.threaded.of_same same
  distinct := fresh.distinct
  unshifted i member := (shiftAt_congr (same i member)).trans (fresh.unshifted i member)

theorem children {i : Nat} {l r : Shape Nat} (fresh : t.Fresh above link (.node i l r)) :
    ∃ n, t.node? i = some n ∧ t.Fresh (some i) n.left l ∧ t.Fresh (some i) n.right r ∧
      l.preOrder.Disjoint r.preOrder := by
  obtain ⟨-, distinct⟩ := List.nodup_cons.mp fresh.distinct
  obtain ⟨distinctl, distinctr, disjoint⟩ := List.nodup_append'.mp distinct
  have unshifted := fresh.unshifted
  simp only [Shape.preOrder, List.mem_cons, List.mem_append] at unshifted
  cases fresh.threaded with
  | @node _ _ n _ _ stored _ threadedl threadedr =>
    exact ⟨n, stored, ⟨threadedl, distinctl, fun j member => unshifted j (.inr (.inl member))⟩,
      ⟨threadedr, distinctr, fun j member => unshifted j (.inr (.inr member))⟩, disjoint⟩

theorem subtree (fresh : t.Fresh above link s) (path : List Side) :
    ∃ above link, t.Fresh above link (s.subtree path) := by
  obtain ⟨above', link', threaded⟩ := fresh.threaded.subtree path
  have below := s.preOrder_subtree_sublist path
  exact ⟨above', link', threaded, fresh.distinct.sublist below,
    fun i member => fresh.unshifted i (below.subset member)⟩

end Fresh

/-- A subtree is arranged in place, and nothing else has changed. -/
structure Arranged (h : K) (t : Tree K) (s : Shape Nat) (t' : Tree K) : Prop where
  frame : t.SameFrame t'
  root : t'.root = t.root
  others : ∀ i, i ∉ s.preOrder → t'.node? i = t.node? i
  arranged : t'.arrangement s = Arrangement.ofShape h s

/-- A subtree stays arranged while another one is. -/
theorem Arranged.kept {h : K} {t t₁ t₂ : Tree K} {l r : Shape Nat} (left : Arranged h t l t₁)
    (right : Arranged h t₁ r t₂) (disjoint : l.preOrder.Disjoint r.preOrder) :
    t₂.arrangement l = Arrangement.ofShape h l := by
  rw [← left.arranged]
  exact arrangement_congr fun j member => right.others j (disjoint member)

/-- A node put at a place. -/
theorem arrangement_placedAt {t : Tree K} {i : Nat} {n : Node K} (stored : t.node? i = some n)
    {l r : Shape Nat} (apart : i ∉ l.preOrder ++ r.preOrder) (x : K) :
    (t.modify i (Node.placedAt x)).arrangement (.node i l r) =
      .node ⟨i, x, t.shiftAt i⟩ (t.arrangement l) (t.arrangement r) := by
  have here : (t.modify i (Node.placedAt x)).node? i = some (n.placedAt x) := by
    rw [node?_modify, if_pos rfl, stored, Option.map_some]
  rw [List.mem_append, not_or] at apart
  rw [arrangement_node, arrangement_modify apart.1, arrangement_modify apart.2, spotAt,
    xAt_of_node? here, shiftAt_of_node? here, shiftAt_of_node? stored]
  rfl

/-- The second pass at a node whose children are on top of arranged subtrees. -/
theorem putOver_arranged {h : K} {t : Tree K} {above link : Option Nat} {i : Nat} {l r : Shape Nat}
    (threaded : t.Threaded above link (.node i l r))
    (distinct : (Shape.node i l r).preOrder.Nodup) (unshifted : t.shiftAt i = 0.0)
    (left : t.arrangement l = Arrangement.ofShape h l)
    (right : t.arrangement r = Arrangement.ofShape h r) :
    Arranged h t (.node i l r) (t.putOver h i) := by
  obtain ⟨apart, distinct⟩ := List.nodup_cons.mp distinct
  -- before the node is put at its place, at most the right subtree is shifted
  have finish {t' : Tree K} {x : K} (run : t.putOver h i = t'.modify i (Node.placedAt x))
      (root : t'.root = t.root) (others : ∀ j, j ∉ r.preOrder → t'.node? j = t.node? j)
      (joined : .node ⟨i, x, 0.0⟩ (t'.arrangement l) (t'.arrangement r) =
        Arrangement.join h i (t.arrangement l) (t.arrangement r)) :
      Arranged h t (.node i l r) (t.putOver h i) := by
    cases threaded with
    | @node _ _ n _ _ stored back _ _ =>
      have here : t'.node? i = t.node? i := others i fun member => apart (by simp [member])
      refine ⟨sameFrame_putOver h t i, run ▸ root, fun j outside => ?_, ?_⟩
      · simp only [Shape.preOrder, List.mem_cons, List.mem_append, not_or] at outside
        rw [run, node?_modify, if_neg (Ne.symm outside.1), others j outside.2.2]
      · rw [run, arrangement_placedAt (here.trans stored) apart, shiftAt, here, ← shiftAt,
          unshifted, joined, left, right]
        rfl
  have still {x : K} (run : t.putOver h i = t.modify i (Node.placedAt x)) :=
    finish run rfl fun _ _ => rfl
  cases threaded with
  | @node _ _ n _ _ stored back threadedl threadedr =>
    obtain ⟨label, leftLink, rightLink, parent, x, y, shift⟩ := n
    cases threadedl with
    | empty =>
      cases threadedr with
      | empty => exact still (x := 0.0) (by simp only [putOver, stored]) rfl
      | @node _ cr _ _ _ _ _ _ _ =>
        exact still (x := t.xAt cr - h) (by simp only [putOver, stored]) rfl
    | @node _ cl _ _ _ storedl backl ll lr =>
      cases threadedr with
      | empty => exact still (x := t.xAt cl + h) (by simp only [putOver, stored]) rfl
      | @node _ cr _ _ _ storedr backr rl rr =>
        have sib : t.Siblings (some i) cl cr (.node cl _ _) (.node cr _ _) :=
          ⟨.node storedl backl ll lr, .node storedr backr rl rr, distinct⟩
        obtain ⟨z, middle, separated⟩ := sib.middleX h
        have run : t.putOver h i = (t.modify cr (Node.shiftedTo z)).modify i
            (Node.placedAt (t.middleX h cl cr).2) := by
          simp only [putOver, stored, middle]
        refine finish run rfl (fun j outside => ?_) ?_
        · rw [node?_modify, if_neg]
          rintro rfl
          exact outside (by simp [Shape.preOrder])
        · rw [middle, sib.arrangement_left, separated]
          rfl

/-- Going up through a subtree arranges it. -/
theorem foldl_putOver_arranged {t : Tree K} {above link : Option Nat} {s : Shape Nat}
    (fresh : t.Fresh above link s) (h : K) : Arranged h t s (s.postOrder.foldl (putOver h) t) := by
  induction s generalizing t above link with
  | empty => exact ⟨.refl t, rfl, fun _ _ => rfl, rfl⟩
  | node i l r ihl ihr =>
    obtain ⟨n, -, freshl, freshr, disjoint⟩ := fresh.children
    have apart := (List.nodup_cons.mp fresh.distinct).1
    rw [List.mem_append, not_or] at apart
    rw [Shape.postOrder, List.foldl_append, List.foldl_append, List.foldl_cons, List.foldl_nil]
    have left := ihl freshl
    generalize l.postOrder.foldl (putOver h) t = t₁ at left ⊢
    have right := ihr (freshr.of_same fun j member =>
      left.others j fun inLeft => disjoint inLeft member)
    generalize r.postOrder.foldl (putOver h) t₁ = t₂ at right ⊢
    have frame := left.frame.trans right.frame
    have here : t₂.node? i = t.node? i := (right.others i apart.2).trans (left.others i apart.1)
    have unshifted : t₂.shiftAt i = 0.0 :=
      (shiftAt_congr here).trans (fresh.unshifted i (by simp [Shape.preOrder]))
    have top := putOver_arranged (frame.threaded fresh.threaded) fresh.distinct unshifted
      (left.kept right disjoint) right.arranged
    refine ⟨frame.trans top.frame, top.root.trans (right.root.trans left.root), ?_, top.arranged⟩
    intro j outside
    have inside := outside
    simp only [Shape.preOrder, List.mem_cons, List.mem_append, not_or] at inside
    rw [top.others j outside, right.others j inside.2.2, left.others j inside.2.1]

/-- Going up through the subtrees of two children makes them siblings on top of arranged subtrees.
-/
theorem siblings_arranged {t : Tree K} {above link : Option Nat} {i left right : Nat}
    {l r : Shape Nat} (fresh : t.Fresh above link (.node i l r)) (h : K)
    (isLeft : t.Hangs i .left left) (isRight : t.Hangs i .right right) :
    let t' := (l.postOrder ++ r.postOrder).foldl (putOver h) t
    t'.Siblings (some i) left right l r ∧ t'.arrangement l = Arrangement.ofShape h l ∧
      t'.arrangement r = Arrangement.ofShape h r := by
  obtain ⟨n, stored, freshl, freshr, disjoint⟩ := fresh.children
  have linkl : n.left = some left := isLeft.link_eq stored
  have linkr : n.right = some right := isRight.link_eq stored
  rw [linkl] at freshl
  rw [linkr] at freshr
  have first := foldl_putOver_arranged freshl h
  have second := foldl_putOver_arranged (freshr.of_same fun j member =>
    first.others j fun inLeft => disjoint inLeft member) h
  have frame := first.frame.trans second.frame
  rw [List.foldl_append]
  exact ⟨⟨frame.threaded freshl.threaded, frame.threaded freshr.threaded,
    (List.nodup_cons.mp fresh.distinct).2⟩, first.kept second disjoint, second.arranged⟩

/-- Before the second pass comes to a node it goes through the subtrees of the node's children, and
before that it has not touched the node or any node below. -/
theorem postOrder_before {t : Tree K} {above link : Option Nat} {s : Shape Nat}
    (fresh : t.Fresh above link s) (h : K) {path : List Side} {i : Nat} {l r : Shape Nat}
    (here : s.subtree path = .node i l r) :
    ∃ before after, s.postOrder = before ++ (l.postOrder ++ r.postOrder) ++ i :: after ∧
      ∀ j ∈ (Shape.node i l r).preOrder, (before.foldl (putOver h) t).node? j = t.node? j := by
  induction path generalizing t above link s with
  | nil =>
    cases here
    exact ⟨[], [], rfl, fun _ _ => rfl⟩
  | cons side path ih =>
    cases s with
    | empty => simp [Shape.branch] at here
    | node a sl sr =>
      obtain ⟨n, -, freshl, freshr, disjoint⟩ := fresh.children
      cases side with
      | left =>
        obtain ⟨before, after, order, untouched⟩ := ih freshl here
        refine ⟨before, after ++ sr.postOrder ++ [a], ?_, untouched⟩
        simp only [Shape.postOrder, order, List.append_assoc, List.cons_append]
      | right =>
        have left := foldl_putOver_arranged freshl h
        have kept (j : Nat) (member : j ∈ sr.preOrder) :
            (sl.postOrder.foldl (putOver h) t).node? j = t.node? j :=
          left.others j fun inLeft => disjoint inLeft member
        obtain ⟨before, after, order, untouched⟩ := ih (freshr.of_same kept) here
        refine ⟨sl.postOrder ++ before, after ++ [a], ?_, fun j member => ?_⟩
        · simp only [Shape.postOrder, order, List.append_assoc, List.cons_append]
        · have inRight : j ∈ sr.preOrder :=
            (sr.preOrder_subtree_sublist path).subset (here ▸ member)
          rw [List.foldl_append, untouched j member, kept j inRight]

/-- When the second pass comes to a parent of two, its children are siblings on top of arranged
subtrees. -/
theorem siblings_before {t : Tree K} {above link : Option Nat} {s : Shape Nat}
    (fresh : t.Fresh above link s) (h : K) {before after : List Nat} {i : Nat}
    (order : s.postOrder = before ++ i :: after) {left right : Nat}
    (isLeft : t.Hangs i .left left) (isRight : t.Hangs i .right right) :
    ∃ sl sr, (before.foldl (putOver h) t).Siblings (some i) left right sl sr ∧
      (before.foldl (putOver h) t).arrangement sl = Arrangement.ofShape h sl ∧
      (before.foldl (putOver h) t).arrangement sr = Arrangement.ofShape h sr := by
  have member : i ∈ s.preOrder := s.postOrder_perm.mem_iff.mp (by simp [order])
  obtain ⟨path, leads⟩ := Shape.mem_preOrder_iff_path.mp member
  obtain ⟨above', link', below⟩ := fresh.subtree path
  cases whole : s.subtree path with
  | empty =>
    rw [whole] at leads
    cases leads
  | node j l r =>
    rw [whole] at leads below
    cases leads
    obtain ⟨first, rest, order', untouched⟩ := postOrder_before fresh h whole
    have split : before = first ++ (l.postOrder ++ r.postOrder) := by
      have once : s.postOrder.Nodup := s.postOrder_perm.nodup_iff.mpr fresh.distinct
      rw [order] at once
      have apart := (List.nodup_cons.mp (List.nodup_middle.mp once)).1
      rw [List.mem_append, not_or] at apart
      exact ((List.append_cons_inj_of_notMem apart.1 apart.2).mp (order.symm.trans order')).1
    have links := (sameFrame_foldl_putOver h t first).sameLinks
    rw [split, List.foldl_append]
    exact ⟨l, r, siblings_arranged (below.of_same untouched) h (links.hangs_iff.mp isLeft)
      (links.hangs_iff.mp isRight)⟩

end Tree

end TreeDiagram
