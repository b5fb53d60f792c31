import Mathlib.Data.List.Nodup
import TreeDiagram.Tree.Shape
/-!
# The items of a shape

Every item of a shape stands on one of its levels, and of two items on a level one stands to the
left of the other: it is found in the left subtree, and the other in the right subtree, of a node
above both. Moving to other items keeps all of this.
-/

namespace TreeDiagram

namespace Shape

variable {α β : Type}

/-- One item is in the left and the other in the right subtree of a node of the shape. -/
def LeftOf : Shape α → α → α → Prop
  | empty, _, _ => False
  | node _ l r, a, b => (a ∈ l.preOrder ∧ b ∈ r.preOrder) ∨ l.LeftOf a b ∨ r.LeftOf a b

@[simp] theorem preOrder_map (f : α → β) (s : Shape α) :
    (s.map f).preOrder = s.preOrder.map f := by
  induction s with
  | empty => rfl
  | node a l r ihl ihr => simp [map, preOrder, ihl, ihr]

@[simp] theorem length_preOrder (s : Shape α) : s.preOrder.length = s.size := by
  induction s with
  | empty => rfl
  | node a l r ihl ihr => simp [preOrder, size, ihl, ihr]

theorem mem_preOrder_iff {s : Shape α} {a : α} : a ∈ s.preOrder ↔ ∃ k, a ∈ s.level k := by
  induction s with
  | empty => simp [preOrder, level]
  | node b l r ihl ihr =>
    simp only [preOrder, List.mem_cons, List.mem_append, ihl, ihr]
    constructor
    · rintro (rfl | ⟨k, h⟩ | ⟨k, h⟩)
      · exact ⟨0, by simp [level]⟩
      · exact ⟨k + 1, by simp [level, h]⟩
      · exact ⟨k + 1, by simp [level, h]⟩
    · rintro ⟨k, h⟩
      cases k with
      | zero => exact .inl (by simpa [level] using h)
      | succ k =>
        rcases List.mem_append.mp h with h | h
        · exact .inr (.inl ⟨k, h⟩)
        · exact .inr (.inr ⟨k, h⟩)

/-- Two items on one level stand side by side. -/
theorem leftOf_or_leftOf {s : Shape α} {k : Nat} {a b : α} (ha : a ∈ s.level k)
    (hb : b ∈ s.level k) (different : a ≠ b) : s.LeftOf a b ∨ s.LeftOf b a := by
  induction s generalizing k with
  | empty => simp [level] at ha
  | node c l r ihl ihr =>
    cases k with
    | zero =>
      simp only [level, List.mem_singleton] at ha hb
      exact absurd (ha.trans hb.symm) different
    | succ k =>
      have below {x : α} {t : Shape α} (h : x ∈ t.level k) : x ∈ t.preOrder :=
        mem_preOrder_iff.mpr ⟨k, h⟩
      rcases List.mem_append.mp ha with ha | ha <;> rcases List.mem_append.mp hb with hb | hb
      · rcases ihl ha hb with h | h
        · exact .inl (.inr (.inl h))
        · exact .inr (.inr (.inl h))
      · exact .inl (.inl ⟨below ha, below hb⟩)
      · exact .inr (.inl ⟨below hb, below ha⟩)
      · rcases ihr ha hb with h | h
        · exact .inl (.inr (.inr h))
        · exact .inr (.inr (.inr h))

theorem LeftOf.map {s : Shape α} {a b : α} (f : α → β) (h : s.LeftOf a b) :
    (s.map f).LeftOf (f a) (f b) := by
  induction s with
  | empty => exact h.elim
  | node c l r ihl ihr =>
    rcases h with ⟨ha, hb⟩ | h | h
    · exact .inl ⟨by simpa using ⟨a, ha, rfl⟩, by simpa using ⟨b, hb, rfl⟩⟩
    · exact .inr (.inl (ihl h))
    · exact .inr (.inr (ihr h))

/-- An order of new items that are all different is an order of the old ones. -/
theorem LeftOf.of_map {s : Shape α} {f : α → β} {a b : α}
    (distinct : (s.map f).preOrder.Nodup) (ha : a ∈ s.preOrder) (hb : b ∈ s.preOrder)
    (h : (s.map f).LeftOf (f a) (f b)) : s.LeftOf a b := by
  rw [preOrder_map] at distinct
  have injective := List.inj_on_of_nodup_map distinct
  -- the old item that a new item of a subtree comes from is in that subtree
  have source {t : Shape α} {x : α} (sub : t.preOrder ⊆ s.preOrder) (hx : x ∈ s.preOrder)
      (found : f x ∈ (t.map f).preOrder) : x ∈ t.preOrder := by
    rw [preOrder_map] at found
    obtain ⟨y, hy, same⟩ := List.mem_map.mp found
    exact injective (sub hy) hx same ▸ hy
  have climb (t : Shape α) (sub : t.preOrder ⊆ s.preOrder) (order : (t.map f).LeftOf (f a) (f b)) :
      t.LeftOf a b := by
    induction t with
    | empty => exact order.elim
    | node c l r ihl ihr =>
      have subl : l.preOrder ⊆ s.preOrder := fun x hx => sub (by simp [preOrder, hx])
      have subr : r.preOrder ⊆ s.preOrder := fun x hx => sub (by simp [preOrder, hx])
      rcases order with ⟨hl, hr⟩ | order | order
      · exact .inl ⟨source subl ha hl, source subr hb hr⟩
      · exact .inr (.inl (ihl subl order))
      · exact .inr (.inr (ihr subr order))
  exact climb s (fun _ hx => hx) h

end Shape

end TreeDiagram
