import Std.Data.String.ToNat
import TreeDiagram.Drawing.Scene
import TreeDiagram.Proofs.Cascade
import TreeDiagram.Proofs.Drawing.Marks
import TreeDiagram.Proofs.Layout.Nodes
/-!
# The tags of a drawing

A drawing is the begin of a page, its background, the edges, the circles and the labels of its
nodes, and the end of the page. No text from the input adds a tag to these or changes what a tag
stands for, and no two circles have the same name.
-/

namespace TreeDiagram

theorem Color.looksText_attributes (c : Color) (name : String) (listed : name ∈ lookNames)
    (listed' : name ++ "-opacity" ∈ lookNames) : LooksText (c.attributes name) := by
  refine (looksText_attribute name listed c.inert_hex).append ?_
  cases c.opacity? with
  | none => exact looksText_empty
  | some part => exact looksText_attribute _ listed' (inert_coordinateText part)

theorem Dash.looksText_attributesOf (text : String) : LooksText (attributesOf text) := by
  unfold attributesOf
  cases parse? text with
  | none => exact looksText_empty
  | some dash =>
    exact (looksText_attribute _ (by decide) dash.inert_lengths).append
      (looksText_attribute _ (by decide) (inert_toString _))

namespace Style

theorem looksText_edgeAttributes (s : Style) : LooksText s.edgeAttributes := by
  have color := (Color.mk s.edgeColor).looksText_attributes "stroke" (by decide) (by decide)
  have width := looksText_attribute "stroke-width" (by decide) (inert_toString s.edgeWidth)
  exact (color.append width).append (Dash.looksText_attributesOf s.edgeDash)

theorem looksText_circleAttributes (s : Style) : LooksText s.circleAttributes := by
  have fill := (Color.mk s.fillColor).looksText_attributes "fill" (by decide) (by decide)
  have border := (Color.mk s.borderColor).looksText_attributes "stroke" (by decide) (by decide)
  have width := looksText_attribute "stroke-width" (by decide) (inert_toString s.borderWidth)
  exact ((fill.append border).append width).append (Dash.looksText_attributesOf s.borderDash)

theorem looksText_labelAttributes (s : Style) (o : SvgOptions) :
    LooksText (s.labelAttributes o) := by
  have size := looksText_attribute "font-size" (by decide) (inert_toString s.fontSize)
  have fill := (Color.mk s.fontColor).looksText_attributes "fill" (by decide) (by decide)
  unfold labelAttributes
  refine (((size.append ?_).append ?_).append ?_).append fill
  · cases o.fontFamily s.fontFamily with
    | none => exact looksText_empty
    | some family => exact looksText_attribute "font-family" (by decide) (inert_escape family)
  · split
    · exact looksText_attribute "font-style" (by decide) (by decide)
    · exact looksText_empty
  · split
    · exact looksText_attribute "font-weight" (by decide) (by decide)
    · exact looksText_empty

end Style

namespace Mark

/-- The background of a page. -/
def background (o : SvgOptions) : Mark where
  name := "rect"
  attributes := [("class", o.namePrefix ++ "background")]
  ending := "/"

/-- An edge, with its ends. -/
def edge (o : SvgOptions) (e : Segment Float) : Mark where
  name := "line"
  attributes :=
    [("class", o.namePrefix ++ "edge"), ("x1", coordinateText e.childEnd.x),
      ("y1", coordinateText e.childEnd.y), ("x2", coordinateText e.parentEnd.x),
      ("y2", coordinateText e.parentEnd.y)]
  ending := "/"

/-- The circle of a node, with its own name and the label. -/
def circle (o : SvgOptions) (n : PlacedNode Float) : Mark where
  name := "circle"
  attributes :=
    [("id", o.namePrefix ++ "n" ++ toString n.node), ("class", o.namePrefix ++ "node"),
      ("data-label", escape n.label)]
  ending := "/"

/-- A label, in front of its text. -/
def label (o : SvgOptions) (text : String) : Mark where
  name := "text"
  attributes := [("class", o.namePrefix ++ "label")]
  content := some text

variable {o : SvgOptions}

theorem inert_className (clean : Inert o.namePrefix.toList) {kind : String}
    (inert : Inert kind.toList) : Inert (o.namePrefix ++ kind).toList := by
  rw [String.toList_append]
  exact inert_append.mpr ⟨clean, inert⟩

theorem proper_mk {name ending : String} {first : String × String}
    {later : List (String × String)} {content : Option String} (unbroken : ' ' ∉ name.toList)
    (inert : Inert name.toList ∧ Inert ending.toList)
    (attributes : InertAttributes (first :: later)) :
    (Mark.mk name (first :: later) ending content).Proper :=
  ⟨unbroken, inert.1, attributes, inert.2, fun none_ => by cases none_⟩

theorem proper_background (clean : Inert o.namePrefix.toList) : (background o).Proper :=
  proper_mk (by decide) (by decide)
    (.cons (by decide) (inert_className clean (by decide)) inertAttributes_nil)

theorem proper_edge (clean : Inert o.namePrefix.toList) (e : Segment Float) :
    (edge o e).Proper := by
  refine proper_mk (by decide) (by decide)
    (.cons (by decide) (inert_className clean (by decide)) ?_)
  exact .cons (by decide) (inert_coordinateText _) (.cons (by decide) (inert_coordinateText _)
    (.cons (by decide) (inert_coordinateText _) (.cons (by decide) (inert_coordinateText _)
      inertAttributes_nil)))

theorem proper_circle (clean : Inert o.namePrefix.toList) (n : PlacedNode Float) :
    (circle o n).Proper := by
  have id : Inert (o.namePrefix ++ "n" ++ toString n.node).toList := by
    rw [String.toList_append]
    exact inert_append.mpr ⟨inert_className clean (by decide), inert_toString n.node⟩
  refine proper_mk (by decide) (by decide) (.cons (by decide) id ?_)
  exact .cons (by decide) (inert_className clean (by decide))
    (.cons (by decide) (inert_escape n.label) inertAttributes_nil)

theorem proper_label (clean : Inert o.namePrefix.toList) (text : String) :
    (label o text).Proper :=
  proper_mk (by decide) (by decide)
    (.cons (by decide) (inert_className clean (by decide)) inertAttributes_nil)

end Mark

section Rounding

variable {K : Type}

/-- An edge as it is written. -/
def Segment.rounded (round : K → Float) (e : Segment K) : Segment Float :=
  ⟨⟨round e.childEnd.x, round e.childEnd.y⟩, ⟨round e.parentEnd.x, round e.parentEnd.y⟩⟩

/-- A placed node as it is written. -/
def PlacedNode.rounded (round : K → Float) (n : PlacedNode K) : PlacedNode Float :=
  { node := n.node, label := n.label, depth := n.depth, x := round n.x, y := round n.y,
    shift := round n.shift, parent := n.parent }

namespace Session

variable [Plane K] (round : K → Float) (o : SvgOptions) (layout : Layout K)

/-- The page with a node drawn on it whose place is computed with numbers of any kind. They are
rounded where they are written. -/
def drawNodeRounded (page : Page) (n : PlacedNode K) (style : Style) : Page :=
  let center := layout.pointOf n
  let page :=
    match edgeOf? layout n style with
    | none => page
    | some edge =>
      let edge := edge.rounded round
      page.addEdge o edge.childEnd.x edge.childEnd.y edge.parentEnd.x edge.parentEnd.y
        style.edgeAttributes
  let page :=
    page.addCircle o n.node n.label (round center.x) (round center.y)
      (round (drawnRadius layout style)) style.circleAttributes
  page.addLabel o (style.textFor n.label) (round center.x) (round center.y)
    (style.labelAttributes o)

/-- The page with all nodes of a layout drawn on it. -/
def pageRounded (background : Color) (styleOf : PlacedNode K → Style) : Page :=
  layout.nodes.toList.foldl
    (fun page n => drawNodeRounded round o layout page n (styleOf n))
    (({} : Page).setBackground o (round layout.pageWidth) (round layout.pageHeight) background)

/-- The drawing of a layout as text. -/
def svgRounded (background : Color) (styleOf : PlacedNode K → Style) : String :=
  (pageRounded round o layout background styleOf).text o (round layout.pageWidth)
    (round layout.pageHeight)

/-- Floating point numbers are written as they are. -/
theorem drawNode_eq_drawNodeRounded (o : SvgOptions) (layout : Layout Float) (page : Page)
    (n : PlacedNode Float) (style : Style) :
    drawNode o layout page (n, style) = drawNodeRounded id o layout page n style := by
  simp only [drawNode, drawNodeRounded]
  cases edgeOf? layout n style with
  | none => rfl
  | some e => rfl

theorem page_eq_pageRounded (s : Session Float) (o : SvgOptions) :
    s.page o = pageRounded id o s.layout ⟨s.overrides.pageBackgroundColor⟩ s.resolve := by
  unfold page pageRounded
  rw [styledNodes_eq, List.foldl_map]
  simp only [drawNode_eq_drawNodeRounded]
  rfl

theorem svg_eq_svgRounded (s : Session Float) (o : SvgOptions) :
    s.svg o = svgRounded id o s.layout ⟨s.overrides.pageBackgroundColor⟩ s.resolve := by
  rw [svg, page_eq_pageRounded]
  rfl

end Session

end Rounding

namespace Page

/-- The elements of a page stand for marks, group by group. -/
structure Draws (p : Page) (background edges circles labels : List Mark) : Prop where
  background : List.Forall₂ Element.Shows p.background.toList background
  edges : List.Forall₂ Element.Shows p.edges.toList edges
  circles : List.Forall₂ Element.Shows p.circles.toList circles
  labels : List.Forall₂ Element.Shows p.labels.toList labels

theorem draws_empty : ({} : Page).Draws [] [] [] [] :=
  ⟨.nil, .nil, .nil, .nil⟩

theorem forall₂_push {elements : Array Element} {marks : List Mark} {e : Element} {m : Mark}
    (h : List.Forall₂ Element.Shows elements.toList marks) (shows_ : e.Shows m) :
    List.Forall₂ Element.Shows (elements.push e).toList (marks ++ [m]) := by
  rw [Array.toList_push]
  exact List.rel_append h (.cons shows_ .nil)

namespace Draws

variable {p : Page} {o : SvgOptions} {background edges circles labels : List Mark}

theorem elements (h : p.Draws background edges circles labels) :
    List.Forall₂ Element.Shows p.elements (background ++ edges ++ circles ++ labels) :=
  List.rel_append (List.rel_append (List.rel_append h.background h.edges) h.circles) h.labels

theorem setBackground (clean : Inert o.namePrefix.toList)
    (h : p.Draws background edges circles labels) (width height : Float) (color : Color) :
    (p.setBackground o width height color).Draws [.background o] edges circles labels := by
  refine ⟨.cons ?_ .nil, h.edges, h.circles, h.labels⟩
  refine ⟨Mark.proper_background clean, rfl, rfl, rfl, ?_⟩
  have look : Looks [("x", "0"), ("y", "0"), ("width", coordinateText width),
      ("height", coordinateText height)] :=
    .cons (by decide) (by decide) (.cons (by decide) (by decide)
      (.cons (by decide) (inert_coordinateText _)
        (.cons (by decide) (inert_coordinateText _) looks_nil)))
  exact Element.exists_looks rfl look
    (color.looksText_attributes "fill" (by decide) (by decide))

theorem addEdge (clean : Inert o.namePrefix.toList) (h : p.Draws background edges circles labels)
    (e : Segment Float) {styles : String} (styled : LooksText styles) :
    (p.addEdge o e.childEnd.x e.childEnd.y e.parentEnd.x e.parentEnd.y styles).Draws background
      (edges ++ [.edge o e]) circles labels := by
  refine ⟨h.background, forall₂_push h.edges ?_, h.circles, h.labels⟩
  refine ⟨Mark.proper_edge clean e, rfl, rfl, rfl, ?_⟩
  exact Element.exists_looks (List.append_nil _).symm looks_nil styled

theorem addCircle (clean : Inert o.namePrefix.toList)
    (h : p.Draws background edges circles labels) (n : PlacedNode Float) (x y radius : Float)
    {styles : String} (styled : LooksText styles) :
    (p.addCircle o n.node n.label x y radius styles).Draws background edges
      (circles ++ [.circle o n]) labels := by
  refine ⟨h.background, h.edges, forall₂_push h.circles ?_, h.labels⟩
  refine ⟨Mark.proper_circle clean n, rfl, rfl, rfl, ?_⟩
  have look : Looks [("cx", coordinateText x), ("cy", coordinateText y),
      ("r", coordinateText radius)] :=
    .cons (by decide) (inert_coordinateText _) (.cons (by decide) (inert_coordinateText _)
      (.cons (by decide) (inert_coordinateText _) looks_nil))
  exact Element.exists_looks rfl look styled

theorem addLabel (clean : Inert o.namePrefix.toList)
    (h : p.Draws background edges circles labels) (text : String) (x y : Float) {styles : String}
    (styled : LooksText styles) :
    (p.addLabel o text x y styles).Draws background edges circles
      (labels ++ [.label o text]) := by
  refine ⟨h.background, h.edges, h.circles, forall₂_push h.labels ?_⟩
  refine ⟨Mark.proper_label clean text, rfl, rfl, rfl, ?_⟩
  have look : Looks [("x", coordinateText x), ("y", coordinateText y), ("text-anchor", "middle"),
      ("dominant-baseline", "central")] :=
    .cons (by decide) (inert_coordinateText _) (.cons (by decide) (inert_coordinateText _)
      (.cons (by decide) (by decide) (.cons (by decide) (by decide) looks_nil)))
  exact Element.exists_looks rfl look styled

variable {K : Type} [Plane K]

/-- A node adds its circle and its label, and its edge if there is one. -/
theorem drawNode (clean : Inert o.namePrefix.toList) (h : p.Draws background edges circles labels)
    (round : K → Float) (layout : Layout K) (n : PlacedNode K) (style : Style) :
    (Session.drawNodeRounded round o layout p n style).Draws background
      (edges ++ ((Session.edgeOf? layout n style).map fun e =>
        Mark.edge o (e.rounded round)).toList)
      (circles ++ [.circle o (n.rounded round)])
      (labels ++ [.label o (style.textFor n.label)]) := by
  unfold Session.drawNodeRounded
  apply addLabel clean _ _ _ _ (style.looksText_labelAttributes o)
  apply addCircle clean _ (n.rounded round) _ _ _ style.looksText_circleAttributes
  cases Session.edgeOf? layout n style with
  | none => simpa using h
  | some e => exact addEdge clean h (e.rounded round) style.looksText_edgeAttributes

/-- All nodes one after the other add their marks in their order, group by group. -/
theorem drawNodes (clean : Inert o.namePrefix.toList)
    (h : p.Draws background edges circles labels) (round : K → Float) (layout : Layout K)
    (styleOf : PlacedNode K → Style) (nodes : List (PlacedNode K)) :
    (nodes.foldl (fun page n => Session.drawNodeRounded round o layout page n (styleOf n))
      p).Draws background
      (edges ++ nodes.filterMap fun n =>
        (Session.edgeOf? layout n (styleOf n)).map fun e => Mark.edge o (e.rounded round))
      (circles ++ nodes.map fun n => Mark.circle o (n.rounded round))
      (labels ++ nodes.map fun n => Mark.label o ((styleOf n).textFor n.label)) := by
  induction nodes generalizing p edges circles labels with
  | nil => simpa using h
  | cons n later ih =>
    have drawn := ih (h.drawNode clean round layout n (styleOf n))
    rw [List.append_assoc, List.append_assoc, List.append_assoc] at drawn
    rw [List.filterMap_cons]
    cases edge : (Session.edgeOf? layout n (styleOf n)).map
        fun e => Mark.edge o (e.rounded round) with
    | none =>
      rw [edge] at drawn
      exact drawn
    | some m =>
      rw [edge] at drawn
      exact drawn

end Draws

end Page

namespace Session

/-- The edges of a drawing: one for each node with a parent if there is a line between their
circles. Both count with the radius of the node, which is that of the layout unless it has its
own. -/
def edgeMarks (s : Session Float) (o : SvgOptions) : List Mark :=
  s.layout.nodes.toList.filterMap fun n => do
    let parent ← s.layout.parentOf? n
    let own := (s.resolve n).nodeRadius
    let radius := if 0 < own then Float.ofNat own else s.layout.radius
    let e ← Segment.clip (s.layout.pointOf n) (s.layout.pointOf parent) radius
    some (.edge o e)

/-- What the tags of a drawing stand for: a declaration if there is to be one, the begin of the
page, its background, the edges, a circle for each node and then a label for each node, and the end
of the page. A label has the text that is given to its node, or else the label of the node. -/
def marks (s : Session Float) (o : SvgOptions) : List Mark :=
  let nodes := s.layout.nodes.toList
  (if o.standalone then [.declaration] else []) ++ .page :: .background o ::
    (s.edgeMarks o ++ nodes.map (Mark.circle o) ++
      nodes.flatMap (fun n =>
        [.label o (if (s.resolve n).nodeLabel = "" then n.label else (s.resolve n).nodeLabel),
          .closing "text"]) ++ [.closing "svg"])

/-- The edges of a drawing are those that are drawn. -/
theorem edgeMarks_eq (s : Session Float) (o : SvgOptions) :
    s.edgeMarks o = s.layout.nodes.toList.filterMap fun n =>
      (edgeOf? s.layout n (s.resolve n)).map (Mark.edge o) := by
  unfold edgeMarks
  congr 1
  funext n
  rw [edgeOf?]
  cases s.layout.parentOf? n with
  | none => rfl
  | some parent =>
    rw [Option.bind_some, Option.map_eq_bind]
    rfl

theorem exists_edge_of_mem {s : Session Float} {o : SvgOptions} {m : Mark}
    (member : m ∈ s.edgeMarks o) : ∃ e, Mark.edge o e = m := by
  rw [edgeMarks_eq] at member
  obtain ⟨n, -, drawn⟩ := List.mem_filterMap.mp member
  obtain ⟨e, -, same⟩ := Option.map_eq_some_iff.mp drawn
  exact ⟨e, same⟩

theorem draws_pageRounded {K : Type} [Plane K] (round : K → Float) {o : SvgOptions}
    (clean : Inert o.namePrefix.toList) (layout : Layout K) (background : Color)
    (styleOf : PlacedNode K → Style) :
    (pageRounded round o layout background styleOf).Draws [.background o]
      (layout.nodes.toList.filterMap fun n =>
        (edgeOf? layout n (styleOf n)).map fun e => Mark.edge o (e.rounded round))
      (layout.nodes.toList.map fun n => Mark.circle o (n.rounded round))
      (layout.nodes.toList.map fun n => Mark.label o ((styleOf n).textFor n.label)) :=
  (Page.draws_empty.setBackground clean _ _ _).drawNodes clean round layout styleOf _

theorem draws_page (s : Session Float) {o : SvgOptions} (clean : Inert o.namePrefix.toList) :
    (s.page o).Draws [.background o] (s.edgeMarks o) (s.layout.nodes.toList.map (Mark.circle o))
      (s.layout.nodes.toList.map fun n => Mark.label o ((s.resolve n).textFor n.label)) := by
  rw [page_eq_pageRounded, edgeMarks_eq]
  exact draws_pageRounded id clean s.layout _ s.resolve

/-- The text of a drawing is nothing but its tags and what they are followed by. -/
theorem readsTags_svg (s : Session Float) {o : SvgOptions} (clean : Inert o.namePrefix.toList) :
    ReadsTags (s.marks o) (s.svg o).toList := by
  have reads := Page.readsTags_text (s.draws_page clean).elements o s.layout.pageWidth
    s.layout.pageHeight
  have edges : (s.edgeMarks o).flatMap Mark.whole = s.edgeMarks o := by
    apply Mark.flatMap_whole
    intro m member
    obtain ⟨e, rfl⟩ := exists_edge_of_mem member
    rfl
  have circles : (s.layout.nodes.toList.map (Mark.circle o)).flatMap Mark.whole =
      s.layout.nodes.toList.map (Mark.circle o) := by
    apply Mark.flatMap_whole
    intro m member
    obtain ⟨n, -, rfl⟩ := List.mem_map.mp member
    rfl
  rw [List.flatMap_append, List.flatMap_append, List.flatMap_append, edges, circles,
    List.flatMap_map] at reads
  exact reads

/-- The circles among the marks of a drawing are those of its nodes. -/
theorem filter_circle_marks (s : Session Float) (o : SvgOptions) :
    (s.marks o).filter (fun m => m.name = "circle") =
      s.layout.nodes.toList.map (Mark.circle o) := by
  have edges : (s.edgeMarks o).filter (fun m => m.name = "circle") = [] := by
    rw [List.filter_eq_nil_iff]
    intro m member
    obtain ⟨e, rfl⟩ := exists_edge_of_mem member
    simp [Mark.edge]
  have circles : (s.layout.nodes.toList.map (Mark.circle o)).filter (fun m => m.name = "circle") =
      s.layout.nodes.toList.map (Mark.circle o) :=
    Mark.filter_map_same (f := Mark.circle o) (fun _ => rfl) _
  have labels (textOf : PlacedNode Float → String) : (s.layout.nodes.toList.flatMap fun n =>
      [Mark.label o (textOf n), Mark.closing "text"]).filter (fun m => m.name = "circle") = [] := by
    rw [List.filter_eq_nil_iff]
    intro m member
    obtain ⟨n, -, inPair⟩ := List.mem_flatMap.mp member
    rcases List.mem_pair.mp inPair with rfl | rfl <;> simp [Mark.label, Mark.closing]
  have front : (if o.standalone then [Mark.declaration] else []).filter
      (fun m => m.name = "circle") = [] := by
    split <;> rfl
  unfold marks
  rw [List.filter_append, front, List.filter_cons_of_neg (by decide),
    List.filter_cons_of_neg (by simp [Mark.background]), List.filter_append, List.filter_append,
    List.filter_append, edges, circles, labels, List.filter_cons_of_neg (by decide)]
  simp

/-- The names that the circles of a drawing are read with. -/
theorem circle_ids {marks : List Mark} {tags : List Tag} (fits : List.Forall₂ Mark.Fits marks tags)
    (named : ∀ m ∈ marks, m.name = "circle" → (m.attributes.lookup "id").isSome) :
    (tags.filter fun t => t.name = "circle").map (fun t => t.value? "id") =
      (marks.filter fun m => m.name = "circle").map fun m => m.attributes.lookup "id" := by
  induction fits with
  | nil => rfl
  | @cons m t marks tags first _ ih =>
    obtain ⟨this, others⟩ := List.forall_mem_cons.mp named
    by_cases circle : m.name = "circle"
    · obtain ⟨looks, attributes, -⟩ := first.attributes
      obtain ⟨id, found⟩ := Option.isSome_iff_exists.mp (this circle)
      have value : t.value? "id" = m.attributes.lookup "id" := by
        rw [Tag.value?, attributes, List.lookup_append, found, Option.some_or]
      rw [List.filter_cons_of_pos (by simpa [first.name] using circle),
        List.filter_cons_of_pos (by simpa using circle), List.map_cons, List.map_cons, value,
        ih others]
    · rw [List.filter_cons_of_neg (by simpa [first.name] using circle),
        List.filter_cons_of_neg (by simpa using circle), ih others]

theorem nodup_circle_ids {s : Session Float} (o : SvgOptions) {tags : List Tag}
    (fits : List.Forall₂ Mark.Fits (s.marks o) tags)
    (distinct : (s.layout.nodes.toList.map PlacedNode.node).Nodup) :
    ((tags.filter fun t => t.name = "circle").map fun t => t.value? "id").Nodup := by
  have circles := s.filter_circle_marks o
  have named : ∀ m ∈ s.marks o, m.name = "circle" → (m.attributes.lookup "id").isSome := by
    intro m member circle
    have inCircles : m ∈ (s.marks o).filter fun m => m.name = "circle" :=
      List.mem_filter.mpr ⟨member, by simpa using circle⟩
    rw [circles] at inCircles
    obtain ⟨n, -, rfl⟩ := List.mem_map.mp inCircles
    rfl
  have ids : (s.layout.nodes.toList.map (Mark.circle o)).map (fun m => m.attributes.lookup "id") =
      (s.layout.nodes.toList.map PlacedNode.node).map fun k =>
        some (o.namePrefix ++ "n" ++ toString k) := by
    rw [List.map_map, List.map_map]
    rfl
  rw [circle_ids fits named, circles, ids]
  refine distinct.map fun k k' same => ?_
  have numeral := (String.append_right_inj _).mp (Option.some.inj same)
  exact Nat.repr_inj.mp numeral

/-- Every opening bracket of a drawing begins one of its tags, which are those of the page, of its
background, and of the edges, circles and labels of the nodes in their order. They are so for every
tree, whatever its labels and its properties are, if only the names of classes begin without markup.
The names of the circles are distinct even if labels are not. -/
theorem svg_tags {styling : Styling} {source : String} {d : Document Float}
    {factors : LayoutFactors Float} {s : Session Float}
    (read : Document.read styling source = .ok d) (laidOut : ofDocument factors d = .ok s)
    (view : Style) {o : SvgOptions} (clean : Inert o.namePrefix.toList) :
    (tagsIn ((s.withView view).svg o).toList).flatMap Tag.text =
        ((s.withView view).svg o).toList ∧
      List.Forall₂ Mark.Fits ((s.withView view).marks o)
        (tagsIn ((s.withView view).svg o).toList) ∧
      (((tagsIn ((s.withView view).svg o).toList).filter fun t => t.name = "circle").map
        fun t => t.value? "id").Nodup := by
  obtain ⟨tags, whole, separate, fits⟩ := (s.withView view).readsTags_svg clean
  have distinct := nodup_nodes_of_read read laidOut
  rw [whole, tagsIn_flatMap_text separate]
  exact ⟨rfl, fits, nodup_circle_ids o fits distinct⟩

/-- An input with a label that repeats, and a text for it that has markup. -/
def repeating : String :=
  "BiTree = 7(7,7)\n7[NodeLabel=\"<circle/>\"]\n"

/-- In the layout of `repeating` there is room for an edge between each of two nodes and the third
one. All three have the same text. -/
theorem exists_parse_repeating : ∃ s : Session Float, parse repeating = .ok s ∧
    ∃ top ∈ s.layout.nodes.toList, ∃ left ∈ s.layout.nodes.toList,
    ∃ right ∈ s.layout.nodes.toList, s.layout.nodes.toList = [top, left, right] ∧
      s.layout.parentOf? top = none ∧ s.layout.parentOf? left = some top ∧
      s.layout.parentOf? right = some top ∧
      (Segment.clip (s.layout.pointOf left) (s.layout.pointOf top) s.layout.radius).isSome ∧
      (Segment.clip (s.layout.pointOf right) (s.layout.pointOf top) s.layout.radius).isSome ∧
      ∀ n ∈ s.layout.nodes.toList,
        (s.resolve n).nodeRadius = 0 ∧ (s.resolve n).nodeLabel = "<circle/>" := by
  let tree : TreeDescription.Derivation := .branch "7" (.leaf "7") (.leaf "7")
  have lines : significantLines repeating.toList =
      [⟨0, "BiTree = 7(7,7)".toList⟩, ⟨16, "7[NodeLabel=\"<circle/>\"]".toList⟩] := by
    decide +kernel
  have marked : afterStartMarker? "BiTree = 7(7,7)".toList = some " 7(7,7)".toList := by
    decide +kernel
  have words : (lex " 7(7,7)".toList).toOption.map (List.map Lexeme.token) = some tree.words := by
    decide +kernel
  exact exists_parse_of_lines {} {} lines marked words (by decide +kernel)

/-- The tags of `repeating`: two edges, and three circles and labels. No text in it is a circle. -/
theorem svg_tags_repeating : ∃ (s : Session Float) (top left right : PlacedNode Float)
    (e e' : Segment Float), parse repeating = .ok s ∧
    s.layout.nodes.toList = [top, left, right] ∧
    Segment.clip (s.layout.pointOf left) (s.layout.pointOf top) s.layout.radius = some e ∧
    Segment.clip (s.layout.pointOf right) (s.layout.pointOf top) s.layout.radius = some e' ∧
    (tagsIn (s.svg {}).toList).flatMap Tag.text = (s.svg {}).toList ∧
    List.Forall₂ Mark.Fits
      [.declaration, .page, .background {}, .edge {} e, .edge {} e', .circle {} top,
        .circle {} left, .circle {} right, .label {} "<circle/>", .closing "text",
        .label {} "<circle/>", .closing "text", .label {} "<circle/>", .closing "text",
        .closing "svg"] (tagsIn (s.svg {}).toList) ∧
    (((tagsIn (s.svg {}).toList).filter fun t => t.name = "circle").map
      fun t => t.value? "id").Nodup := by
  obtain ⟨s, parsed, top, -, left, -, right, -, nodes, above, leftBelow, rightBelow, leftRoom,
    rightRoom, styles⟩ := exists_parse_repeating
  obtain ⟨e, leftClip⟩ := Option.isSome_iff_exists.mp leftRoom
  obtain ⟨e', rightClip⟩ := Option.isSome_iff_exists.mp rightRoom
  obtain ⟨read, laidOut⟩ := parse_eq_ok parsed
  have clean : Inert ({} : SvgOptions).namePrefix.toList := by decide
  obtain ⟨whole, fits, distinct⟩ := svg_tags read laidOut s.cascade.view clean
  change List.Forall₂ Mark.Fits (s.marks {}) _ at fits
  rw [nodes, List.forall_mem_cons, List.forall_mem_cons, List.forall_mem_singleton] at styles
  obtain ⟨topStyle, leftStyle, rightStyle⟩ := styles
  have edges : s.edgeMarks {} = [.edge {} e, .edge {} e'] := by
    rw [edgeMarks, nodes]
    simp [above, leftBelow, rightBelow, leftStyle.1, rightStyle.1, leftClip, rightClip]
  have text : ¬("<circle/>" = "") := by decide
  rw [marks, edges, nodes] at fits
  simp only [List.flatMap_cons, topStyle.2, leftStyle.2, rightStyle.2, if_neg text] at fits
  exact ⟨s, top, left, right, e, e', parsed, nodes, leftClip, rightClip, whole, fits, distinct⟩

end Session

end TreeDiagram
