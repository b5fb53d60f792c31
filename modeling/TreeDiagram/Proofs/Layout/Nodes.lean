import TreeDiagram.Layout.Basic
import TreeDiagram.Proofs.Document
import TreeDiagram.Proofs.Tree.Items
/-!
# Every node is placed once

Whatever numbers a tree is laid out with, its arrangement has the nodes of the tree in their places,
and placing lists them in root, left, right order. The nodes of an input that is read are therefore
placed once each.
-/

namespace TreeDiagram

variable {K : Type} [Scalar K]

namespace Arrangement

theorem map_node_moved (d : K) (a : Arrangement K) :
    (a.moved d).map Spot.node = a.map Spot.node := by
  cases a <;> rfl

theorem map_node_separateLevel (h : K) (left right : Arrangement K) (k : Nat) :
    (separateLevel h left right k).map Spot.node = right.map Spot.node := by
  unfold separateLevel
  split
  · dsimp only
    split
    · exact map_node_moved _ right
    · rfl
  · rfl

theorem map_node_separate (h : K) (left right : Arrangement K) :
    (separate h left right).map Spot.node = right.map Spot.node := by
  unfold separate
  generalize List.range (min left.height right.height) = levels
  induction levels generalizing right with
  | nil => rfl
  | cons k later ih => rw [List.foldl_cons, ih, map_node_separateLevel]

theorem map_node_join (h : K) (i : Nat) (left right : Arrangement K) :
    (join h i left right).map Spot.node =
      .node i (left.map Spot.node) (right.map Spot.node) := by
  cases left with
  | empty => cases right <;> rfl
  | node s l r =>
    cases right with
    | empty => rfl
    | node s' l' r' => simp only [join, Shape.map, map_node_separate]

/-- The arrangement of a tree has the nodes of the tree in their places. -/
theorem map_node_ofShape (h : K) (s : Shape Nat) : (ofShape h s).map Spot.node = s := by
  induction s with
  | empty => rfl
  | node i l r ihl ihr => rw [ofShape, map_node_join, ihl, ihr]

end Arrangement

namespace Layout

theorem map_node_place (labelAt : Nat → String) (v : K) (a : Arrangement K) (shift : K)
    (depth : Nat) (parent : Option Nat) (before : Array (PlacedNode K)) :
    (place labelAt v a shift depth parent before).toList.map PlacedNode.node =
      before.toList.map PlacedNode.node ++ (a.map Spot.node).preOrder := by
  induction a generalizing shift depth parent before with
  | empty => simp [place, Shape.map, Shape.preOrder]
  | node s l r ihl ihr => simp [place, Shape.map, Shape.preOrder, ihl, ihr]

/-- What a layout is made from: its tree, the radius that its labels need, a style and the factors.
-/
structure MadeFrom (layout : Layout K) (t : Tree K) (radius : K) (style : Style)
    (factors : LayoutFactors K) : Prop where
  rooted : t.root ≠ none
  positive : 0.0 < radius
  finite : Scalar.isFinite radius
  horizontal : layout.horizontalSpacing = (factors.spacing radius style).1
  vertical : layout.verticalSpacing = (factors.spacing radius style).2
  marginX : layout.marginX = (factors.margins radius style).1
  marginY : layout.marginY = (factors.margins radius style).2
  radius : layout.radius = radius + (style.radiusIncrement : K)
  nodes : layout.nodes = placeAll t layout.horizontalSpacing layout.verticalSpacing
  pageWidth : layout.pageWidth =
    2.0 * layout.marginX + (maxX layout.nodes - minX layout.nodes)
  pageHeight : layout.pageHeight = 2.0 * layout.marginY + maxY layout.nodes
  offsetX : layout.offsetX = if minX layout.nodes < 0.0 then -minX layout.nodes else 0.0

theorem madeFrom_of_compute {t : Tree K} {radius : K} {style : Style} {factors : LayoutFactors K}
    {layout : Layout K} (laid : compute t radius style factors = .ok layout) :
    layout.MadeFrom t radius style factors := by
  unfold compute at laid
  split at laid
  · cases laid
  · next rooted =>
    split at laid
    · next valid =>
      cases laid
      constructor
      · simpa using rooted
      · exact valid.1
      · exact valid.2
      all_goals rfl
    · cases laid

/-- A layout has the nodes of its tree in root, left, right order. -/
theorem map_node_of_compute {t : Tree K} {radius : K} {style : Style} {factors : LayoutFactors K}
    {layout : Layout K} (laid : compute t radius style factors = .ok layout) :
    layout.nodes.toList.map PlacedNode.node = t.shape.preOrder := by
  rw [(madeFrom_of_compute laid).nodes]
  simp [placeAll, map_node_place, Arrangement.map_node_ofShape]

end Layout

namespace Session

theorem nodup_nodes_of_read {styling : Styling} {source : String} {d : Document K}
    {factors : LayoutFactors K} {s : Session K} (read : Document.read styling source = .ok d)
    (laidOut : ofDocument factors d = .ok s) :
    (s.layout.nodes.toList.map PlacedNode.node).Nodup := by
  obtain ⟨tree, described⟩ := Document.exists_derivation_of_read read
  rw [Layout.map_node_of_compute (compute_of_ofDocument laidOut), described,
    (TreeDescription.describes_description tree).preOrder]
  exact List.nodup_range

end Session

end TreeDiagram
