import TreeDiagram.Proofs.Layout.InPlace
import TreeDiagram.Proofs.Layout.Picture
/-!
# Laying a tree out again

A layout depends on the root, the labels and the links of a tree, and on nothing that an earlier
layout left in it. Laying a tree out changes the coordinates and the parents of the nodes that are
reached, and doing so again changes nothing more.
-/

namespace TreeDiagram

variable {K : Type}

/-- Coordinates that are filled in once more stay the same. -/
theorem Tree.settle_settle {t : Tree K} {placed : Array (PlacedNode K)}
    (distinct : (placed.toList.map PlacedNode.node).Nodup) :
    (t.settle placed).settle placed = t.settle placed := by
  refine ext_node? (root_settle _ placed) fun j => ?_
  by_cases reached : j ∈ placed.toList.map PlacedNode.node
  · obtain ⟨n, member, rfl⟩ := List.mem_map.mp reached
    rw [node?_settle_of_mem distinct (Array.mem_toList_iff.mp member),
      node?_settle_of_mem distinct (Array.mem_toList_iff.mp member), Option.map_map]
    rfl
  · rw [node?_settle_of_notMem reached]

variable [Scalar K] {t : Tree K} {radius : K} {style : Style} {factors : LayoutFactors K}

theorem Layout.compute_congr {t' : Tree K} (root : t'.root = t.root) (links : t.SameLinks t')
    (radius : K) (style : Style) (factors : LayoutFactors K) :
    compute t' radius style factors = compute t radius style factors := by
  unfold compute placeAll
  rw [root, links.shape_eq root.symm, links.labelAt_eq]

namespace Tree

theorem layOutInPlace_of_ok (wf : t.WellFormed) (zero : (0.0 : K) + 0.0 = 0.0) {layout : Layout K}
    (laid : Layout.compute t radius style factors = .ok layout) :
    t.layOutInPlace radius style factors = (.ok layout, t.settle layout.nodes) := by
  rw [layOutInPlace_eq wf zero, layOut, laid]
  rfl

theorem layOutInPlace_of_error (wf : t.WellFormed) (zero : (0.0 : K) + 0.0 = 0.0)
    {e : LayoutError K} (refused : Layout.compute t radius style factors = .error e) :
    t.layOutInPlace radius style factors = (.error e, t) := by
  rw [layOutInPlace_eq wf zero, layOut, refused]
  rfl

theorem layOutInPlace_refused {e : LayoutError K}
    (refused : (t.layOutInPlace radius style factors).1 = .error e) :
    (t.layOutInPlace radius style factors).2 = t := by
  unfold layOutInPlace at refused ⊢
  split
  · rfl
  · next isRoot =>
    rw [isRoot] at refused
    split
    · next valid =>
      simp only [if_pos valid] at refused
      cases refused
    · rfl

/-- Laying a well-formed tree out in place gives what is drawn, for every tree with the same root,
labels and links. A second time it gives the same layout and changes nothing. The nodes of the
layout have the coordinates that are written into the tree; labels, links and nodes out of reach are
kept. A tree that gets no layout stays as it is, well formed or not. -/
theorem layout_repeatable (wf : t.WellFormed) (zero : (0.0 : K) + 0.0 = 0.0) (radius : K)
    (style : Style) (factors : LayoutFactors K) :
    let run := t.layOutInPlace radius style factors
    t.layOut radius style factors = run.1.map (fun layout => (layout, run.2)) ∧
    (∀ t' : Tree K, t'.root = t.root → t.SameLinks t' →
      (t'.layOutInPlace radius style factors).1 = run.1) ∧
    run.2.layOutInPlace radius style factors = run ∧
    (∀ layout, run.1 = .ok layout → ∀ n ∈ layout.nodes, ∃ stored, run.2.node? n.node = some stored ∧
      stored.x = n.x ∧ stored.y = n.y) ∧
    run.2.root = t.root ∧ t.SameLinks run.2 ∧
    (∀ i, ¬ t.Reachable i → run.2.node? i = t.node? i) ∧
    (∀ (t' : Tree K) (e : LayoutError K), (t'.layOutInPlace radius style factors).1 = .error e →
      (t'.layOutInPlace radius style factors).2 = t') := by
  cases found : Layout.compute t radius style factors with
  | error e =>
    rw [layOutInPlace_of_error wf zero found]
    refine ⟨?_, fun t' root links => ?_, layOutInPlace_of_error wf zero found,
      fun layout laid => ?_, rfl, .refl t, fun _ _ => rfl, fun _ _ => layOutInPlace_refused⟩
    · rw [layOut, found]
      rfl
    · rw [layOutInPlace_of_error (links.wellFormed root.symm wf) zero
        ((Layout.compute_congr root links radius style factors).trans found)]
    · cases laid
  | ok layout =>
    have links := t.sameLinks_settle layout.nodes
    have root := t.root_settle layout.nodes
    have distinct := Layout.nodup_nodes wf found
    have items := Layout.map_node_of_compute found
    rw [layOutInPlace_of_ok wf zero found]
    refine ⟨?_, fun t' root links => ?_, ?_, ?_, root, links, fun i unreachable => ?_,
      fun _ _ => layOutInPlace_refused⟩
    · rw [layOut, found]
      rfl
    · rw [layOutInPlace_of_ok (links.wellFormed root.symm wf) zero
        ((Layout.compute_congr root links radius style factors).trans found)]
    · rw [layOutInPlace_of_ok (links.wellFormed root.symm wf) zero
        ((Layout.compute_congr root links radius style factors).trans found),
        settle_settle distinct]
    · rintro _ ⟨⟩ n member
      have reachable : t.Reachable n.node := by
        refine wf.spans_shape.mem_preOrder_iff.mp ?_
        rw [← items]
        exact List.mem_map_of_mem (Array.mem_toList_iff.mpr member)
      obtain ⟨stored, here⟩ := wf.stored reachable
      refine ⟨Layout.settled layout.nodes n stored, ?_, rfl, rfl⟩
      rw [node?_settle_of_mem distinct member, here, Option.map_some]
    · refine node?_settle_of_notMem ?_
      rw [items]
      exact fun reached => unreachable (wf.spans_shape.mem_preOrder_iff.mp reached)

/-- Without rounding and with it zero and zero is zero. The cousins are laid out twice, and the same
holds of a single node in floating point. -/
theorem layout_repeatable_cousins :
    cousins.WellFormed ∧ (0.0 : Rat) + 0.0 = 0.0 ∧
      (let run := cousins.layOutInPlace 10 {} {}
       run.1 = .ok Layout.cousins ∧ run.2.layOutInPlace 10 {} {} = run ∧
         ((run.2.setRoot 0).layOutInPlace 10 {} {}).1 = run.1) ∧
      (single "top" : Tree Float).WellFormed ∧ (0.0 : Float) + 0.0 = 0.0 ∧
      let run := (single "top" : Tree Float).layOutInPlace 10.0 {} {}
      run.2.layOutInPlace 10.0 {} {} = run := by
  have zero : (0.0 : Rat) + 0.0 = 0.0 := by norm_num
  have zero' : (0.0 : Float) + 0.0 = 0.0 := rfl
  have spans : (single "top" : Tree Float).Spans (some 0) (.leaf 0) := .node rfl .empty .empty
  have wf : (single "top" : Tree Float).WellFormed :=
    spans.wellFormed (Option.some_ne_none 0) (by decide)
  obtain ⟨-, alike, again, -, -, links, -, -⟩ :=
    layout_repeatable wellFormed_cousins zero 10 {} {}
  obtain ⟨-, -, again', -⟩ := layout_repeatable wf zero' 10.0 {} {}
  have laid : (cousins.layOutInPlace 10 {} {}).1 = .ok Layout.cousins := by
    rw [layOutInPlace_of_ok wellFormed_cousins zero Layout.compute_cousins]
  have moved := alike ((cousins.layOutInPlace 10 {} {}).2.setRoot 0) rfl
    (links.trans (sameLinks_setRoot _ 0))
  exact ⟨wellFormed_cousins, zero, ⟨laid, again, moved⟩, wf, zero', again'⟩

end Tree

end TreeDiagram
