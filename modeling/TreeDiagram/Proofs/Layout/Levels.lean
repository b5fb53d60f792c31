import Mathlib.Tactic.SplitIfs
import TreeDiagram.Layout.Passes
import TreeDiagram.Proofs.Tree.Traversal
/-!
# The first pass

Going down level by level gives every node of a well-formed tree the height of its level and clears
its place and its shift. Every child names its parent and the root names none, whatever was stored
there before. Labels and links are kept, and so are the nodes out of reach.
-/

namespace TreeDiagram

namespace Tree

variable {K : Type}

/-- A change that is made again and again at a row of nodes is made once at each. -/
theorem node?_foldl_modify {f : Node K → Node K} (idempotent : ∀ n, f (f n) = f n) (row : List Nat)
    (t : Tree K) (j : Nat) : (row.foldl (fun t c => t.modify c f) t).node? j =
      if j ∈ row then (t.node? j).map f else t.node? j := by
  induction row generalizing t with
  | nil => simp
  | cons c row ih =>
    rw [List.foldl_cons, ih, node?_modify]
    by_cases here : c = j
    · subst here
      cases t.node? c <;> simp [idempotent]
    · simp [here, eq_comm (a := j)]

theorem root_foldl_modify (f : Node K → Node K) (row : List Nat) (t : Tree K) :
    (row.foldl (fun t c => t.modify c f) t).root = t.root := by
  induction row generalizing t with
  | nil => rfl
  | cons c row ih => exact ih _

/-- Nodes are on one level each and hang from one parent each. -/
structure Consistent (t : Tree K) (done : List (Nat × Nat)) : Prop where
  level : ∀ p ∈ done, ∀ q ∈ done, p.1 = q.1 → p.2 = q.2
  parent : ∀ p ∈ done, ∀ q ∈ done, ∀ c, c ∈ t.children p.1 → c ∈ t.children q.1 → p.1 = q.1

theorem Consistent.mono {t : Tree K} {done more : List (Nat × Nat)} (h : t.Consistent more)
    (fewer : done ⊆ more) : t.Consistent done where
  level p hp q hq := h.level p (fewer hp) q (fewer hq)
  parent p hp q hq := h.parent p (fewer hp) q (fewer hq)

theorem Spans.mem_withLevels_iff {t : Tree K} {i : Nat} {s : Shape Nat} (h : t.Spans (some i) s)
    (distinct : s.preOrder.Nodup) {j k : Nat} : (j, k) ∈ t.withLevels i ↔ j ∈ s.level k := by
  simp only [withLevels, List.mem_flatMap, List.mem_map, Prod.mk.injEq, Prod.exists,
    List.mem_zipIdx_iff_getElem?, h.getElem?_levelsOf distinct]
  constructor
  · rintro ⟨_, _, ⟨-, rfl⟩, _, member, rfl, rfl⟩
    exact member
  · intro member
    exact ⟨_, k, ⟨Shape.lt_height_of_mem_level member, rfl⟩, j, member, rfl, rfl⟩

namespace WellFormed

variable {t : Tree K} {root : Nat}

theorem mem_withLevels_iff (wf : t.WellFormed) (isRoot : t.root = some root) {i k : Nat} :
    (i, k) ∈ t.withLevels root ↔ i ∈ t.shape.level k :=
  (isRoot ▸ wf.spans_shape : t.Spans (some root) t.shape).mem_withLevels_iff wf.nodup_shape

theorem reachable_of_mem_withLevels (wf : t.WellFormed) (isRoot : t.root = some root)
    {p : Nat × Nat} (member : p ∈ t.withLevels root) : t.Reachable p.1 :=
  wf.spans_shape.mem_preOrder_iff.mp
    (Shape.mem_preOrder_iff.mpr ⟨p.2, (wf.mem_withLevels_iff isRoot).mp member⟩)

/-- Every node of a well-formed tree is on one level and hangs from one node. -/
theorem consistent (wf : t.WellFormed) (isRoot : t.root = some root) :
    t.Consistent (t.withLevels root) := by
  have reachable {p : Nat × Nat} := wf.reachable_of_mem_withLevels isRoot (p := p)
  constructor
  · rintro ⟨i, j⟩ hp ⟨i', k⟩ hq rfl
    rw [wf.mem_withLevels_iff isRoot] at hp hq
    exact Shape.level_unique wf.nodup_shape hp hq
  · intro p hp q hq c hc hc'
    obtain ⟨side, hangs⟩ := mem_children_iff.mp hc
    obtain ⟨side', hangs'⟩ := mem_children_iff.mp hc'
    exact (wf.oneParent (reachable hp) (reachable hq) hangs hangs').1

end WellFormed

/-- Links lead down through a shape and parents lead back up, as far as the parent above it. -/
inductive Threaded (t : Tree K) : Option Nat → Option Nat → Shape Nat → Prop
  | empty {above : Option Nat} : Threaded t above none .empty
  | node {above : Option Nat} {i : Nat} {n : Node K} {l r : Shape Nat} (stored : t.node? i = some n)
      (back : n.parent = above) (left : Threaded t (some i) n.left l)
      (right : Threaded t (some i) n.right r) : Threaded t above (some i) (.node i l r)

theorem Threaded.spans {t : Tree K} {above link : Option Nat} {s : Shape Nat}
    (h : t.Threaded above link s) : t.Spans link s := by
  induction h with
  | empty => exact .empty
  | node stored _ _ _ ihl ihr => exact .node stored ihl ihr

theorem Threaded.of_same {t t' : Tree K} {above link : Option Nat} {s : Shape Nat}
    (h : t.Threaded above link s) (same : ∀ i ∈ s.preOrder, t'.node? i = t.node? i) :
    t'.Threaded above link s := by
  induction h with
  | empty => exact .empty
  | @node above i n l r stored back left right ihl ihr =>
    simp only [Shape.preOrder, List.mem_cons, List.mem_append] at same
    exact .node ((same i (.inl rfl)).trans stored) back
      (ihl fun j member => same j (.inr (.inl member)))
      (ihr fun j member => same j (.inr (.inr member)))

theorem Threaded.parent_eq {t : Tree K} {above : Option Nat} {i : Nat} {s : Shape Nat}
    (h : t.Threaded above (some i) s) {n : Node K} (stored : t.node? i = some n) :
    n.parent = above := by
  cases h with
  | node stored' back =>
    cases stored.symm.trans stored'
    exact back

theorem Threaded.subtree {t : Tree K} {above link : Option Nat} {s : Shape Nat}
    (h : t.Threaded above link s) (path : List Side) :
    ∃ above link, t.Threaded above link (s.subtree path) := by
  induction path generalizing above link s with
  | nil => exact ⟨above, link, h⟩
  | cons side path ih =>
    cases h with
    | empty => exact ⟨none, none, by simpa [Shape.branch] using Threaded.empty⟩
    | node _ _ left right =>
      cases side with
      | left => exact ih left
      | right => exact ih right

theorem Spans.threaded {t : Tree K} {above link : Option Nat} {s : Shape Nat} (h : t.Spans link s)
    (top : ∀ i n, link = some i → t.node? i = some n → n.parent = above)
    (below : ∀ i ∈ s.preOrder, ∀ c ∈ t.children i, ∀ n, t.node? c = some n → n.parent = some i) :
    t.Threaded above link s := by
  induction h generalizing above with
  | empty => exact .empty
  | @node i n l r stored left right ihl ihr =>
    have children : t.children i = n.left.toList ++ n.right.toList := children_of_node? stored
    refine .node stored (top i n rfl stored) (ihl ?_ ?_) (ihr ?_ ?_)
    · exact fun c m link => below i (by simp [Shape.preOrder]) c (by simp [children, link]) m
    · exact fun j member => below j (by simp [Shape.preOrder, member])
    · exact fun c m link => below i (by simp [Shape.preOrder]) c (by simp [children, link]) m
    · exact fun j member => below j (by simp [Shape.preOrder, member])

variable [Scalar K]

theorem node?_assignLevel (v : K) (t : Tree K) (i level j : Nat) :
    (t.assignLevel v i level).node? j = (t.node? j).map fun n =>
      let n := if i = j then n.atHeight (v * (level : K)) else n
      if j ∈ t.children i then n.childOf (some i) else n := by
  have kept : t.SameLinks (t.modify i (Node.atHeight (v * (level : K)))) :=
    .modify t i fun _ => rfl
  rw [assignLevel, adopt, node?_foldl_modify (f := Node.childOf (some i)) fun _ => rfl,
    ← kept.children_eq, node?_modify]
  cases t.node? j with
  | none => simp
  | some n => split_ifs <;> rfl

/-- What the first pass has done to a tree after it was at some nodes, each on its level. -/
structure Leveled (v : K) (t : Tree K) (done : List (Nat × Nat)) (t' : Tree K)
    (levels : Array Nat) : Prop where
  links : t.SameLinks t'
  root : t'.root = t.root
  cleared : ∀ i level n, (i, level) ∈ done → t'.node? i = some n →
    n.x = 0.0 ∧ n.y = v * (level : K) ∧ n.shift = 0.0
  adopted : ∀ i level c n, (i, level) ∈ done → c ∈ t.children i → t'.node? c = some n →
    n.parent = some i
  /-- Nodes that hang from none of those done keep their parents. -/
  parents : ∀ j, (∀ p ∈ done, j ∉ t.children p.1) →
    (t'.node? j).map Node.parent = (t.node? j).map Node.parent
  others : ∀ j, (∀ p ∈ done, j ≠ p.1 ∧ j ∉ t.children p.1) → t'.node? j = t.node? j
  size : levels.size = t.size
  /-- The level of a node is looked up by its place. -/
  known : ∀ i level, (i, level) ∈ done → i < t.size → levels[i]? = some level

theorem Leveled.assignLevel {v : K} {t t' : Tree K} {done : List (Nat × Nat)} {levels : Array Nat}
    (h : Leveled v t done t' levels) {i level : Nat}
    (consistent : t.Consistent (done ++ [(i, level)])) :
    Leveled v t (done ++ [(i, level)]) (t'.assignLevel v i level)
      (levels.setIfInBounds i level) := by
  have lookup := node?_assignLevel v t' i level
  rw [← h.links.children_eq] at lookup
  have last : (i, level) ∈ done ++ [(i, level)] := by simp
  -- a pair for another node was there before
  have earlier {p : Nat × Nat} (member : p ∈ done ++ [(i, level)]) (other : p.1 ≠ i) :
      p ∈ done := by
    rcases List.mem_append.mp member with member | member
    · exact member
    · exact absurd (congrArg Prod.fst (List.mem_singleton.mp member)) other
  constructor
  · refine h.links.trans fun j => ?_
    rw [lookup]
    cases t'.node? j with
    | none => rfl
    | some n =>
      simp only [Option.map_some]
      split_ifs <;> rfl
  · rw [Tree.assignLevel, adopt, root_foldl_modify]
    exact h.root
  · intro k lv n member found
    rw [lookup] at found
    obtain ⟨m, stored, rfl⟩ := Option.map_eq_some_iff.mp found
    by_cases here : i = k
    · cases consistent.level _ last _ member here
      simp only [if_pos here]
      split_ifs <;> exact ⟨rfl, rfl, rfl⟩
    · have old := h.cleared k lv m (earlier member (Ne.symm here)) stored
      simp only [if_neg here]
      split_ifs <;> exact old
  · intro k lv c n member child found
    rw [lookup] at found
    obtain ⟨m, stored, rfl⟩ := Option.map_eq_some_iff.mp found
    by_cases here : c ∈ t.children i
    · cases consistent.parent _ last _ member c here child
      simp only [if_pos here]
      rfl
    · have other : k ≠ i := fun same => here (same ▸ child)
      have old := h.adopted k lv c m (earlier member other) child stored
      simp only [if_neg here]
      split_ifs <;> exact old
  · intro j orphan
    rw [← h.parents j fun p member => orphan p (by simp [member]), lookup]
    have notHere := orphan _ last
    cases t'.node? j with
    | none => rfl
    | some n =>
      simp only [Option.map_some, if_neg notHere]
      split_ifs <;> rfl
  · intro j apart
    rw [← h.others j fun p member => apart p (by simp [member]), lookup]
    have notHere := apart _ last
    simp only [if_neg notHere.2, if_neg (Ne.symm notHere.1)]
    exact Option.map_id'
  · rw [Array.size_setIfInBounds]
    exact h.size
  · intro k lv member inside
    by_cases here : k = i
    · subst here
      cases consistent.level _ last _ member rfl
      rw [Array.getElem?_setIfInBounds_self_of_lt (by rwa [h.size])]
    · rw [Array.getElem?_setIfInBounds_ne (Ne.symm here)]
      exact h.known k lv (earlier member here) inside

theorem Leveled.start (v : K) (t : Tree K) : Leveled v t [] t (Array.replicate t.size 0) where
  links := .refl t
  root := rfl
  cleared := by simp
  adopted := by simp
  parents _ _ := rfl
  others _ _ := rfl
  size := Array.size_replicate
  known := by simp

theorem Leveled.foldl {v : K} {t t' : Tree K} {done rest : List (Nat × Nat)} {levels : Array Nat}
    (h : Leveled v t done t' levels) (consistent : t.Consistent (done ++ rest)) :
    let (t', levels) := rest.foldl
      (fun (t, levels) (i, level) => (t.assignLevel v i level, levels.setIfInBounds i level))
      (t', levels)
    Leveled v t (done ++ rest) t' levels := by
  induction rest generalizing done t' levels with
  | nil => simpa using h
  | cons p rest ih =>
    rw [List.append_cons] at consistent ⊢
    exact ih (h.assignLevel (consistent.mono (List.subset_append_left _ _))) consistent

/-- What the first pass leaves of a tree. -/
structure Ready (v : K) (t t' : Tree K) (levels : Array Nat) : Prop where
  links : t.SameLinks t'
  root : t'.root = t.root
  threaded : t'.Threaded none t.root t.shape
  cleared : ∀ k i n, i ∈ t.shape.level k → t'.node? i = some n →
    n.x = 0.0 ∧ n.y = v * (k : K) ∧ n.shift = 0.0
  known : ∀ k i, i ∈ t.shape.level k → levels.getD i 0 = k
  others : ∀ i, i ∉ t.shape.preOrder → t'.node? i = t.node? i

theorem Ready.unshifted {v : K} {t t' : Tree K} {levels : Array Nat} (h : Ready v t t' levels)
    {i : Nat} (member : i ∈ t.shape.preOrder) : t'.shiftAt i = 0.0 := by
  obtain ⟨k, level⟩ := Shape.mem_preOrder_iff.mp member
  unfold shiftAt
  cases stored : t'.node? i with
  | none => rfl
  | some n => exact (h.cleared k i n level stored).2.2

theorem WellFormed.ready {t : Tree K} (wf : t.WellFormed) {root : Nat} (isRoot : t.root = some root)
    (v : K) : Ready v t (t.assignLevels v root).1 (t.assignLevels v root).2 := by
  let orphaned := t.modify root (Node.childOf none)
  have links : t.SameLinks orphaned := .modify t root fun _ => rfl
  have wf' : orphaned.WellFormed := links.wellFormed rfl wf
  have listed {i k : Nat} : (i, k) ∈ orphaned.withLevels root ↔ i ∈ t.shape.level k := by
    rw [links.shape_eq rfl]
    exact wf'.mem_withLevels_iff isRoot
  have reached {p : Nat × Nat} (member : p ∈ orphaned.withLevels root) : t.Reachable p.1 :=
    wf.spans_shape.mem_preOrder_iff.mp (Shape.mem_preOrder_iff.mpr ⟨p.2, listed.mp member⟩)
  have child {p : Nat × Nat} {c : Nat} (member : p ∈ orphaned.withLevels root)
      (below : c ∈ orphaned.children p.1) : t.IsParent p.1 c :=
    mem_children_iff.mp (links.children_eq ▸ below)
  have leveled : Leveled v orphaned (orphaned.withLevels root) (t.assignLevels v root).1
      (t.assignLevels v root).2 :=
    (Leveled.start v orphaned).foldl (wf'.consistent isRoot)
  have links' : t.SameLinks (t.assignLevels v root).1 := links.trans leveled.links
  refine ⟨links', leveled.root, ?_, ?_, ?_, ?_⟩
  · refine (links'.spans wf.spans_shape).threaded ?_ ?_
    · intro i n top stored
      cases isRoot.symm.trans top
      have noParent (p : Nat × Nat) (member : p ∈ orphaned.withLevels root) :
          root ∉ orphaned.children p.1 := by
        intro below
        obtain ⟨_, top, path⟩ := reached member
        cases isRoot.symm.trans top
        exact wf.acyclic ⟨root, isRoot, .refl⟩ (.tail' path (child member below))
      have orphan := leveled.parents root noParent
      rw [stored, node?_modify, if_pos rfl, Option.map_map] at orphan
      obtain ⟨m, -, same⟩ := Option.map_eq_some_iff.mp orphan.symm
      exact same.symm
    · intro i member c below n stored
      obtain ⟨k, level⟩ := Shape.mem_preOrder_iff.mp member
      rw [← links'.children_eq, links.children_eq] at below
      exact leveled.adopted i k c n (listed.mpr level) below stored
  · exact fun k i n member => leveled.cleared i k n (listed.mpr member)
  · intro k i member
    have inside : i < t.size := by
      obtain ⟨n, stored⟩ := wf.stored (reached (listed.mpr member))
      exact (Array.getElem?_eq_some_iff.mp stored).1
    rw [Array.getD_eq_getD_getElem?, leveled.known i k (listed.mpr member) (links.size_eq ▸ inside)]
    rfl
  · intro i apart
    have unreachable : ¬ t.Reachable i :=
      fun path => apart (wf.spans_shape.mem_preOrder_iff.mpr path)
    rw [leveled.others i, node?_modify, if_neg]
    · rintro rfl
      exact unreachable ⟨root, isRoot, .refl⟩
    · intro p member
      refine ⟨?_, fun below => unreachable ((reached member).child (child member below))⟩
      rintro rfl
      exact unreachable (reached member)

end Tree

end TreeDiagram
