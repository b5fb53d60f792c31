import Mathlib.Analysis.SpecialFunctions.Complex.Arg
import TreeDiagram.Drawing.Scene
import TreeDiagram.Proofs.Exact
/-!
# Edges without rounding

Among the real numbers every length and every angle is exact. The visible part of an edge then lies
on the line between the two centres, and both of its ends are one radius away from a centre. The
coordinates of a layout may be rational all the same: only the distances between them need not be.
-/

namespace TreeDiagram

noncomputable instance : Scalar ℝ where
  decidableLE := inferInstance
  decidableLT := inferInstance
  isFinite _ := true

noncomputable instance : Plane ℝ where
  hypotenuse a b := √(a ^ 2 + b ^ 2)
  angle y x := Complex.arg ⟨x, y⟩
  cosine := Real.cos
  sine := Real.sin

namespace Scalar

theorem same_iff {a b : ℝ} : same a b = true ↔ a = b := by
  simp only [same, Bool.and_eq_true, decide_eq_true_eq]
  exact le_antisymm_iff.symm

theorem magnitude_eq_abs (a : ℝ) : magnitude a = |a| := by
  have zero : (0.0 : ℝ) = 0 := by norm_num
  unfold magnitude
  split
  · next negative => exact (abs_of_neg (zero ▸ negative)).symm
  · next notNegative => exact (abs_of_nonneg (not_lt.mp (zero ▸ notNegative))).symm

end Scalar

namespace Plane

theorem hypotenuse_mul_cosine (x y : ℝ) : hypotenuse x y * cosine (angle y x) = x := by
  have polar := Complex.norm_mul_cos_arg ⟨x, y⟩
  rwa [Complex.norm_eq_sqrt_sq_add_sq] at polar

theorem hypotenuse_mul_sine (x y : ℝ) : hypotenuse x y * sine (angle y x) = y := by
  have polar := Complex.norm_mul_sin_arg ⟨x, y⟩
  rwa [Complex.norm_eq_sqrt_sq_add_sq] at polar

end Plane

namespace Point

variable {p q : Point ℝ}

/-- The point that a way of some length from one point straight towards another leads to. -/
noncomputable def toward (p q : Point ℝ) (length : ℝ) : Point ℝ :=
  ⟨p.x + length * ((q.x - p.x) / p.distance q), p.y + length * ((q.y - p.y) / p.distance q)⟩

theorem distance_nonneg (p q : Point ℝ) : 0 ≤ p.distance q := Real.sqrt_nonneg _

theorem sq_distance (p q : Point ℝ) : p.distance q ^ 2 = (p.x - q.x) ^ 2 + (p.y - q.y) ^ 2 :=
  Real.sq_sqrt (by positivity)

theorem distance_comm (p q : Point ℝ) : p.distance q = q.distance p := by
  have squares : p.distance q ^ 2 = q.distance p ^ 2 := by
    rw [sq_distance, sq_distance]
    ring
  exact (pow_left_inj₀ (distance_nonneg p q) (distance_nonneg q p) two_ne_zero).mp squares

theorem distance_pos (apart : p ≠ q) : 0 < p.distance q := by
  apply (distance_nonneg p q).lt_of_ne'
  intro none_
  have squares := sq_distance p q
  rw [none_, zero_pow two_ne_zero] at squares
  have both := (add_eq_zero_iff_of_nonneg (sq_nonneg _) (sq_nonneg _)).mp squares.symm
  have x := sub_eq_zero.mp (pow_eq_zero_iff two_ne_zero |>.mp both.1)
  have y := sub_eq_zero.mp (pow_eq_zero_iff two_ne_zero |>.mp both.2)
  cases p
  cases q
  exact apart (congrArg₂ Point.mk x y)

/-- Two ways in one direction lead to points as far apart as their lengths differ. -/
theorem distance_toward_toward (apart : p ≠ q) (a b : ℝ) :
    (p.toward q a).distance (p.toward q b) = |a - b| := by
  have far := distance_pos apart
  have whole := sq_distance p q
  have squares : (p.toward q a).distance (p.toward q b) ^ 2 = |a - b| ^ 2 := by
    rw [sq_distance, sq_abs, toward, toward]
    field_simp
    rw [whole]
    ring
  exact (pow_left_inj₀ (distance_nonneg _ _) (abs_nonneg _) two_ne_zero).mp squares

/-- A way leads as far as it is long. -/
theorem distance_toward (apart : p ≠ q) (length : ℝ) :
    (p.toward q length).distance p = |length| := by
  have start : p.toward q 0 = p := by simp [toward]
  have distance := distance_toward_toward apart length 0
  rwa [start, sub_zero] at distance

theorem toward_inj (apart : p ≠ q) {a b : ℝ} : p.toward q a = p.toward q b ↔ a = b := by
  constructor
  · intro same
    have none_ : (p.toward q b).distance (p.toward q b) = 0 := by simp [distance, Plane.hypotenuse]
    have distance := distance_toward_toward apart a b
    rw [same, none_] at distance
    exact sub_eq_zero.mp (abs_eq_zero.mp distance.symm)
  · rintro rfl
    rfl

theorem hypotenuse_magnitude (p q : Point ℝ) : Plane.hypotenuse (Scalar.magnitude (p.x - q.x))
    (Scalar.magnitude (p.y - q.y)) = p.distance q := by
  rw [Scalar.magnitude_eq_abs, Scalar.magnitude_eq_abs, distance]
  simp only [Plane.hypotenuse, sq_abs]

theorem cosine_eq (far : 0 < p.distance q) : Plane.cosine (Plane.angle
    (Scalar.magnitude (p.y - q.y)) (Scalar.magnitude (p.x - q.x))) =
      |p.x - q.x| / p.distance q := by
  rw [eq_div_iff far.ne', mul_comm, ← hypotenuse_magnitude, Plane.hypotenuse_mul_cosine,
    Scalar.magnitude_eq_abs]

theorem sine_eq (far : 0 < p.distance q) : Plane.sine (Plane.angle
    (Scalar.magnitude (p.y - q.y)) (Scalar.magnitude (p.x - q.x))) =
      |p.y - q.y| / p.distance q := by
  rw [eq_div_iff far.ne', mul_comm, ← hypotenuse_magnitude, Plane.hypotenuse_mul_sine,
    Scalar.magnitude_eq_abs]

end Point

namespace Segment

variable {child parent : Point ℝ} {radius : ℝ} {e : Segment ℝ}

/-- What is left of the line between two points when a length is cut off at each of its ends. -/
noncomputable def between (child parent : Point ℝ) (atChild atParent : ℝ) : Segment ℝ :=
  ⟨child.toward parent atChild, parent.toward child atParent⟩

theorem hasRoom_iff : hasRoom child parent radius = true ↔
    child.x ≠ parent.x ∧ parent.y < child.y ∧ radius ≠ 0 ∧ 2 * radius < child.distance parent := by
  have zero : (0.0 : ℝ) = 0 := by norm_num
  have two : (2.0 : ℝ) = 2 := by norm_num
  rw [hasRoom, Bool.not_eq_true', ← Bool.not_eq_true, zero, two]
  simp only [Bool.or_eq_true, decide_eq_true_eq, Scalar.same_iff, not_or, not_le, and_assoc]

theorem ne_of_hasRoom (room : hasRoom child parent radius = true) : child ≠ parent :=
  fun same => (hasRoom_iff.mp room).1 (congrArg Point.x same)

/-- An edge that has room is the line between the centres, shortened by one radius at each end. -/
theorem clip_of_hasRoom (room : hasRoom child parent radius = true) :
    clip child parent radius = some (between child parent radius radius) := by
  obtain ⟨beside, below, -, -⟩ := hasRoom_iff.mp room
  have far : 0 < child.distance parent := Point.distance_pos (ne_of_hasRoom room)
  rw [clip, if_pos room]
  dsimp only
  rw [Point.cosine_eq far, Point.sine_eq far, abs_of_pos (sub_pos.mpr below), between, Point.toward,
    Point.toward, Point.distance_comm parent child]
  -- towards the parent is to the right of a left child and to the left of a right one
  rcases lt_or_gt_of_ne beside with left | right
  · rw [if_pos left, abs_of_neg (sub_neg.mpr left)]
    ring_nf
  · rw [if_neg right.not_gt, abs_of_pos (sub_pos.mpr right)]
    ring_nf

/-- Each end of a shortened line is as far from its centre as was cut off there. -/
theorem distance_between (apart : child ≠ parent) (atChild atParent : ℝ) :
    (between child parent atChild atParent).childEnd.distance child = |atChild| ∧
      (between child parent atChild atParent).parentEnd.distance parent = |atParent| :=
  ⟨Point.distance_toward apart atChild, Point.distance_toward apart.symm atParent⟩

theorem between_inj (apart : child ≠ parent) {a b a' b' : ℝ} :
    between child parent a b = between child parent a' b' ↔ a = a' ∧ b = b' := by
  rw [between, between, Segment.mk.injEq, Point.toward_inj apart, Point.toward_inj apart.symm]

theorem isSome_clip : (clip child parent radius).isSome = hasRoom child parent radius := by
  unfold clip
  split
  · next room => exact room.symm
  · next crowded => exact (Bool.eq_false_of_not_eq_true crowded).symm

theorem clip_eq_some_iff : clip child parent radius = some e ↔
    hasRoom child parent radius = true ∧ e = between child parent radius radius := by
  by_cases room : hasRoom child parent radius = true
  · rw [clip_of_hasRoom room, Option.some.injEq, and_iff_right room, eq_comm]
  · simp [clip, room]

end Segment

/-- A point with rational coordinates in the real plane. -/
noncomputable def Point.real (p : Point Rat) : Point ℝ :=
  ⟨p.x, p.y⟩

/-- A node that is placed at rational coordinates in the real plane. -/
noncomputable def PlacedNode.real (n : PlacedNode Rat) : PlacedNode ℝ :=
  { node := n.node, label := n.label, depth := n.depth, x := n.x, y := n.y, shift := n.shift,
    parent := n.parent }

/-- A layout with rational measures in the real plane. -/
noncomputable def Layout.real (layout : Layout Rat) : Layout ℝ where
  horizontalSpacing := layout.horizontalSpacing
  verticalSpacing := layout.verticalSpacing
  marginX := layout.marginX
  marginY := layout.marginY
  pageWidth := layout.pageWidth
  pageHeight := layout.pageHeight
  offsetX := layout.offsetX
  radius := layout.radius
  nodes := layout.nodes.map PlacedNode.real

namespace Point

variable {p q : Point Rat}

theorem sq_distance_real (p q : Point Rat) :
    p.real.distance q.real ^ 2 = ((p.x - q.x) ^ 2 + (p.y - q.y) ^ 2 : Rat) := by
  rw [sq_distance, real, real]
  push_cast
  rfl

/-- Lengths are compared by their squares, which are rational. -/
theorem lt_distance_real_iff {length : Rat} (nonneg : 0 ≤ length) :
    (length : ℝ) < p.real.distance q.real ↔
      length ^ 2 < (p.x - q.x) ^ 2 + (p.y - q.y) ^ 2 := by
  have nonneg' : (0 : ℝ) ≤ length := Rat.cast_nonneg.mpr nonneg
  rw [← sq_lt_sq₀ nonneg' (distance_nonneg _ _), sq_distance_real, ← Rat.cast_pow, Rat.cast_lt]

end Point

theorem Segment.hasRoom_real_iff {child parent : Point Rat} {radius : Rat} (nonneg : 0 ≤ radius) :
    hasRoom child.real parent.real radius = true ↔ child.x ≠ parent.x ∧ parent.y < child.y ∧
      radius ≠ 0 ∧ (2 * radius) ^ 2 < (child.x - parent.x) ^ 2 + (child.y - parent.y) ^ 2 := by
  have diameter : 0 ≤ 2 * radius := by linarith
  have distance := Point.lt_distance_real_iff (p := child) (q := parent) diameter
  rw [Rat.cast_mul, Rat.cast_ofNat] at distance
  rw [hasRoom_iff, distance, Rat.cast_ne_zero]
  simp only [Point.real, ne_eq, Rat.cast_inj, Rat.cast_lt]

namespace Layout

theorem getElem?_real (layout : Layout Rat) (k : Nat) :
    layout.real.nodes[k]? = layout.nodes[k]?.map PlacedNode.real :=
  Array.getElem?_map

theorem parentOf?_real (layout : Layout Rat) (n : PlacedNode Rat) :
    layout.real.parentOf? n.real = (layout.parentOf? n).map PlacedNode.real := by
  unfold parentOf? PlacedNode.real
  cases n.parent with
  | none => rfl
  | some i => exact layout.getElem?_real i

theorem pointOf_real (layout : Layout Rat) (n : PlacedNode Rat) :
    layout.real.pointOf n.real = (layout.pointOf n).real := by
  unfold pointOf absoluteX absoluteY Point.real
  push_cast
  rfl

/-- A child stands beside and below its parent, and their circles neither touch nor overlap, if both
have the radius of the layout. -/
def RoomBetween (layout : Layout Rat) (child parent : PlacedNode Rat) : Prop :=
  let c := layout.pointOf child
  let p := layout.pointOf parent
  c.x ≠ p.x ∧ p.y < c.y ∧ (2 * layout.radius) ^ 2 < (c.x - p.x) ^ 2 + (c.y - p.y) ^ 2

instance (layout : Layout Rat) (child parent : PlacedNode Rat) :
    Decidable (layout.RoomBetween child parent) :=
  inferInstanceAs (Decidable (_ ∧ _))

end Layout

namespace Session

variable {layout : Layout Rat} {n p : PlacedNode Rat} {style : Style}

theorem edgeOf?_real (parent : layout.parentOf? n = some p) (style : Style) :
    edgeOf? layout.real n.real style = Segment.clip (layout.real.pointOf n.real)
      (layout.real.pointOf p.real) (drawnRadius layout.real style) := by
  rw [edgeOf?, Layout.parentOf?_real, parent]
  rfl

/-- The edge of a node without a radius of its own is drawn where there is room for it. -/
theorem isSome_edgeOf?_real_iff (positive : 0 < layout.radius)
    (parent : layout.parentOf? n = some p) (shared : style.nodeRadius = 0) :
    (edgeOf? layout.real n.real style).isSome ↔ layout.RoomBetween n p := by
  have radius : drawnRadius layout.real style = layout.radius := if_neg (by rw [shared]; decide)
  rw [edgeOf?_real parent, radius, Segment.isSome_clip, Layout.pointOf_real, Layout.pointOf_real,
    Segment.hasRoom_real_iff positive.le, and_iff_right positive.ne']
  rfl

end Session

end TreeDiagram
