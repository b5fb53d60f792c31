import TreeDiagram.Proofs.Drawing.Clipping
import TreeDiagram.Proofs.Drawing.Scene
import TreeDiagram.Proofs.Layout.Order
import TreeDiagram.Proofs.Layout.Overlap
/-!
# Every node but the root has an edge

With the default measures a child stands so far beside and below its parent that there is room for
an edge between their circles, whatever the radius and the tree are. A drawing then has one edge
fewer than it has nodes.
-/

namespace TreeDiagram

namespace Layout

namespace Lists

variable {K : Type} [Scalar K] {t : Tree K} {layout : Layout K} {n : PlacedNode K}

/-- Every node but the first has the parent in the layout that it has in the tree. -/
theorem exists_parentOf? (lists : layout.Lists t) {k : Nat} (behind : 0 < k)
    (found : layout.nodes[k]? = some n) :
    ∃ p, layout.parentOf? n = some p ∧ t.IsParent p.node n.node := by
  obtain ⟨i, p, named, -, listed, hangs, -⟩ := lists.later k n behind found
  exact ⟨p, by rw [parentOf?, named, Option.bind_some, listed], hangs⟩

/-- The first node is the root. -/
theorem isRoot_iff (lists : layout.Lists t) {k : Nat} (found : layout.nodes[k]? = some n) :
    t.root = some n.node ↔ k = 0 := by
  obtain ⟨first, listed, isRoot, -⟩ := lists.first
  constructor
  · intro isRoot'
    have entry {j : Nat} {m : PlacedNode K} (found : layout.nodes[j]? = some m) :
        (layout.nodes.toList.map PlacedNode.node)[j]? = some m.node := by
      rw [List.getElem?_map, Array.getElem?_toList, found, Option.map_some]
    have inside := (List.getElem?_eq_some_iff.mp (entry found)).1
    apply (List.getElem?_inj inside lists.distinct).mp
    rw [entry found, entry listed, ← isRoot, isRoot']
  · rintro rfl
    rw [listed] at found
    rw [isRoot, Option.some.inj found]

end Lists

variable {t : Tree Rat} {radius : Rat} {style : Style} {layout : Layout Rat}

/-- Between a node and its parent there is room for an edge. -/
theorem roomBetween_of_parentOf? (increments : style.PlainIncrements)
    (laid : compute t radius style {} = .ok layout) {c p : PlacedNode Rat}
    (member : c ∈ layout.nodes) (parent : layout.parentOf? c = some p) :
    layout.RoomBetween c p := by
  have plain := plain_of_increments increments laid
  have vertical : 0 < layout.verticalSpacing :=
    (radius_pos_of_compute laid).trans_le plain.radius_le_vertical
  have horizontal : 0 < layout.horizontalSpacing := by
    linarith [radius_pos_of_compute laid, plain.radius_le_horizontal]
  obtain ⟨below, beside⟩ := step_of_parentOf laid member parent
  have member' : p ∈ layout.nodes := by
    obtain ⟨i, -, found⟩ := Option.bind_eq_some_iff.mp parent
    exact Array.mem_of_getElem? found
  -- margins and offset move both nodes, so that only their relative places count
  have x : (layout.pointOf c).x - (layout.pointOf p).x = c.x - p.x := by
    simp only [pointOf, absoluteX]
    ring
  have y : (layout.pointOf c).y - (layout.pointOf p).y = layout.verticalSpacing := by
    simp only [pointOf, absoluteY]
    rw [y_of_mem_placed ((mem_nodes_iff laid).mp member),
      y_of_mem_placed ((mem_nodes_iff laid).mp member'), below]
    push_cast
    ring
  have square := pow_le_pow_left₀ horizontal.le beside 2
  rw [sq_abs] at square
  refine ⟨?_, ?_, ?_⟩
  · rw [← sub_ne_zero, x, ← abs_pos]
    exact horizontal.trans_le beside
  · rw [← sub_pos, y]
    exact vertical
  · rw [x, y]
    linarith [plain.radius_lt_edge]

end Layout

namespace Session

/-- The edges that are drawn between placed nodes. -/
def edges {K : Type} [Plane K] (layout : Layout K) (styleOf : PlacedNode K → Style) :
    List (Segment K) :=
  layout.nodes.toList.filterMap fun n => edgeOf? layout n (styleOf n)

/-- Where all nodes but the first have an edge, there is one edge fewer than there are nodes. -/
theorem length_edges {K : Type} [Plane K] {layout : Layout K} {styleOf : PlacedNode K → Style}
    {first : PlacedNode K} (listed : layout.nodes[0]? = some first) (top : first.parent = none)
    (later : ∀ k n, 0 < k → layout.nodes[k]? = some n →
      (edgeOf? layout n (styleOf n)).isSome) :
    (edges layout styleOf).length + 1 = layout.nodes.size := by
  obtain ⟨rest, nodes⟩ : ∃ rest, layout.nodes.toList = first :: rest := by
    rw [← Array.getElem?_toList, ← List.head?_eq_getElem?] at listed
    exact List.head?_eq_some_iff.mp listed
  have none_ : edgeOf? layout first (styleOf first) = none := by
    rw [edgeOf?, Layout.parentOf?, top]
    rfl
  have all : ∀ n ∈ rest, (edgeOf? layout n (styleOf n)).isSome := by
    intro n member
    obtain ⟨k, found⟩ := List.mem_iff_getElem?.mp member
    refine later (k + 1) n (Nat.succ_pos k) ?_
    rw [← Array.getElem?_toList, nodes, List.getElem?_cons_succ, found]
  have drawn : (edges layout styleOf).length = rest.length := by
    rw [edges, nodes, List.filterMap_cons, none_, List.length_filterMap_eq_countP]
    exact List.countP_eq_length.mpr all
  rw [drawn, ← Array.length_toList, nodes, List.length_cons]

/-- The lines of a text. -/
def lines (text : String) : List Tag :=
  (tagsIn text.toList).filter fun t => t.name = "line"

/-- The lines of a drawing are its edges, in their order. -/
theorem lines_svgRounded {K : Type} [Plane K] (round : K → Float) {o : SvgOptions}
    (clean : Inert o.namePrefix.toList) (layout : Layout K) (background : Color)
    (styleOf : PlacedNode K → Style) :
    List.Forall₂ Mark.Fits ((edges layout styleOf).map fun e => Mark.edge o (e.rounded round))
      (lines (svgRounded round o layout background styleOf)) := by
  have opens : ∀ ended, "/" ++ ended ≠ "line" := by
    intro ended same
    have letters := congrArg String.toList same
    rw [String.toList_append] at letters
    cases letters
  have named := Page.tags_named (draws_pageRounded round clean layout background styleOf).elements
    o (round layout.pageWidth) (round layout.pageHeight) opens ⟨by decide, by decide⟩
  have marks : (edges layout styleOf).map (fun e => Mark.edge o (e.rounded round)) =
      layout.nodes.toList.filterMap fun n =>
        (edgeOf? layout n (styleOf n)).map fun e => Mark.edge o (e.rounded round) := by
    rw [edges, List.map_filterMap]
  have drawn : ((edges layout styleOf).map fun e => Mark.edge o (e.rounded round)).filter
      (fun m => m.name = "line") = (edges layout styleOf).map fun e =>
        Mark.edge o (e.rounded round) := by
    apply Mark.filter_map_same
    intro e
    rfl
  have circles : (layout.nodes.toList.map fun n => Mark.circle o (n.rounded round)).filter
      (fun m => m.name = "line") = [] := Mark.filter_map_other (fun _ => by simp [Mark.circle]) _
  have labels : (layout.nodes.toList.map fun n =>
      Mark.label o ((styleOf n).textFor n.label)).filter (fun m => m.name = "line") = [] :=
    Mark.filter_map_other (fun _ => by simp [Mark.label]) _
  have front : [Mark.background o].filter (fun m => m.name = "line") = [] :=
    List.filter_cons_of_neg (by simp [Mark.background])
  rw [← marks, List.filter_append, List.filter_append, List.filter_append, front, drawn, circles,
    labels, List.nil_append, List.append_nil, List.append_nil] at named
  exact named

variable {t : Tree Rat} {radius : Rat} {style : Style} {layout : Layout Rat}

/-- Among real numbers the nodes behind the first have an edge, if their circles have the radius of
the layout. -/
theorem isSome_edgeOf?_real (lists : layout.Lists t) (increments : style.PlainIncrements)
    (laid : Layout.compute t radius style {} = .ok layout) {own : Style}
    (shared : own.nodeRadius = 0) {k : Nat} {n : PlacedNode Rat}
    (found : layout.nodes[k]? = some n) :
    (edgeOf? layout.real n.real own).isSome ↔ 0 < k := by
  by_cases behind : 0 < k
  · obtain ⟨p, parent, -⟩ := lists.exists_parentOf? behind found
    have member := Array.mem_of_getElem? found
    have room := Layout.roomBetween_of_parentOf? increments laid member parent
    have positive := Layout.radius_pos_of_compute laid
    exact iff_of_true ((isSome_edgeOf?_real_iff positive parent shared).mpr room) behind
  · obtain rfl := Nat.eq_zero_of_not_pos behind
    obtain ⟨first, listed, -, top, -⟩ := lists.first
    obtain rfl := Option.some.inj (listed.symm.trans found)
    have orphan : layout.parentOf? first = none := by rw [Layout.parentOf?, top, Option.bind_none]
    refine iff_of_false ?_ behind
    rw [edgeOf?, Layout.parentOf?_real, orphan]
    exact Bool.false_ne_true

theorem length_edges_real (lists : layout.Lists t) (increments : style.PlainIncrements)
    (laid : Layout.compute t radius style {} = .ok layout) {styleOf : PlacedNode ℝ → Style}
    (shared : ∀ n, (styleOf n).nodeRadius = 0) :
    (edges layout.real styleOf).length + 1 = layout.nodes.size := by
  obtain ⟨first, listed, -, top, -⟩ := lists.first
  have listed' : layout.real.nodes[0]? = some first.real := by
    rw [Layout.getElem?_real, listed, Option.map_some]
  have size : layout.real.nodes.size = layout.nodes.size := Array.size_map
  rw [← size]
  refine length_edges listed' top fun k m behind found' => ?_
  rw [Layout.getElem?_real] at found'
  obtain ⟨n, found, rfl⟩ := Option.map_eq_some_iff.mp found'
  exact (isSome_edgeOf?_real lists increments laid (shared _) found).mpr behind

/-- With the default measures there is room for an edge from every node but the root to its parent,
so that each of them has one unless its circle has a radius of its own. The drawing has just as many
lines, however its coordinates are rounded; that of floating point numbers rounds nothing. -/
theorem no_edge_lost (wf : t.WellFormed) (positive : 0 < radius)
    (increments : style.PlainIncrements) :
    (∃ layout, Layout.compute t radius style {} = .ok layout ∧
      (∀ n ∈ layout.nodes, t.root ≠ some n.node → ∃ p, layout.parentOf? n = some p ∧
        t.IsParent p.node n.node ∧ layout.RoomBetween n p) ∧
      ∀ styleOf : PlacedNode ℝ → Style, (∀ n, (styleOf n).nodeRadius = 0) →
        (∀ n ∈ layout.nodes, (edgeOf? layout.real n.real (styleOf n.real)).isSome ↔
          t.root ≠ some n.node) ∧
        ∀ (round : ℝ → Float) (o : SvgOptions) (background : Color), Inert o.namePrefix.toList →
          (lines (svgRounded round o layout.real background styleOf)).length + 1 =
            layout.nodes.size) ∧
    ∀ (s : Session Float) (o : SvgOptions), s.svg o =
      svgRounded id o s.layout ⟨s.overrides.pageBackgroundColor⟩ s.resolve := by
  refine ⟨?_, svg_eq_svgRounded⟩
  obtain ⟨root, isRoot⟩ := wf.rooted
  obtain ⟨layout, laid⟩ :=
    Layout.exists_layout (isRoot ▸ Option.some_ne_none root) positive style {}
  have lists := Layout.lists_of_compute wf laid
  refine ⟨layout, laid, fun n member inner => ?_, fun styleOf shared => ⟨fun n member => ?_,
    fun round o background clean => ?_⟩⟩
  · obtain ⟨k, found⟩ := Array.mem_iff_getElem?.mp member
    have behind : 0 < k := Nat.pos_of_ne_zero fun top => inner ((lists.isRoot_iff found).mpr top)
    obtain ⟨p, parent, hangs⟩ := lists.exists_parentOf? behind found
    exact ⟨p, parent, hangs, Layout.roomBetween_of_parentOf? increments laid member parent⟩
  · obtain ⟨k, found⟩ := Array.mem_iff_getElem?.mp member
    rw [isSome_edgeOf?_real lists increments laid (shared _) found, ne_eq, lists.isRoot_iff found,
      Nat.pos_iff_ne_zero]
  · rw [← (lines_svgRounded round clean layout.real background styleOf).length_eq, List.length_map]
    exact length_edges_real lists increments laid shared

theorem no_edge_lost_cousins : Tree.cousins.WellFormed ∧ (0 : Rat) < 10 ∧
    ({} : Style).PlainIncrements ∧ ∀ (round : ℝ → Float) (background : Color),
      (lines (svgRounded round {} Layout.cousins.real background fun _ => {})).length = 4 := by
  have positive : (0 : Rat) < 10 := by norm_num
  have increments : ({} : Style).PlainIncrements := ⟨rfl, rfl, rfl⟩
  have wf := Tree.wellFormed_cousins
  obtain ⟨⟨layout, laid, -, drawn⟩, -⟩ := no_edge_lost wf positive increments
  obtain rfl := Except.ok.inj (laid.symm.trans Layout.compute_cousins)
  obtain ⟨-, count⟩ := drawn (fun _ => {}) fun _ => rfl
  have clean : Inert ({} : SvgOptions).namePrefix.toList := by decide
  exact ⟨wf, positive, increments, fun round background =>
    Nat.succ.inj (count round {} background clean)⟩

end Session

end TreeDiagram
