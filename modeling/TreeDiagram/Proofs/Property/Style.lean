import TreeDiagram.Property.Style
import TreeDiagram.Proofs.Property.LastValue
/-!
# Styles as stores

Setting a property of a style replaces the value of this property, if the new value is of its kind,
and no other.
-/

namespace TreeDiagram

namespace Rule

/-- The value is of the rule's kind. -/
def Takes : Rule → Value → Prop
  | .range _ _, .number _ => True
  | .length _ _, .text _ => True
  | _, _ => False

theorem takes_of_admits {rule : Rule} {v : Value} (admits : rule.Admits v) : rule.Takes v := by
  cases rule <;> cases v <;> trivial

end Rule

namespace Style

theorem get_set_self (s : Style) {p : Property} {v : Value} (takes : p.rule.Takes v) :
    (s.set p v).get p = v := by
  cases p <;> cases v <;> first | rfl | exact takes.elim

theorem get_set_of_ne (s : Style) {p q : Property} (v : Value) (different : p ≠ q) :
    (s.set p v).get q = s.get q := by
  cases p <;> cases v <;> cases q <;> first | rfl | exact absurd rfl different

theorem takes_get (s : Style) (p : Property) : p.rule.Takes (s.get p) := by
  cases p <;> trivial

theorem ext_get {s t : Style} (same : ∀ p, s.get p = t.get p) : s = t := by
  cases s
  cases t
  rw [Style.mk.injEq]
  exact ⟨Value.text.inj (same .nodeLabel), Value.number.inj (same .nodeRadius),
    Value.number.inj (same .borderColor), Value.number.inj (same .borderWidth),
    Value.text.inj (same .borderDash), Value.number.inj (same .fillColor),
    Value.number.inj (same .edgeColor), Value.number.inj (same .edgeWidth),
    Value.text.inj (same .edgeDash), Value.number.inj (same .fontColor),
    Value.text.inj (same .fontFamily), Value.number.inj (same .fontSize),
    Value.number.inj (same .fontSlant), Value.number.inj (same .fontWeight),
    Value.number.inj (same .radiusIncrement), Value.number.inj (same .edgeXIncrement),
    Value.number.inj (same .edgeYIncrement), Value.number.inj (same .pageBackgroundColor),
    Value.number.inj (same .pageMarginXIncrement), Value.number.inj (same .pageMarginYIncrement)⟩

theorem setAll_cons (s : Style) (a : Property × Value) (later : List (Property × Value)) :
    s.setAll (a :: later) = (s.set a.1 a.2).setAll later := rfl

theorem get_setAll_of_notMem (s : Style) {assignments : List (Property × Value)} {p : Property}
    (absent : p ∉ assignments.map Prod.fst) : (s.setAll assignments).get p = s.get p := by
  induction assignments generalizing s with
  | nil => rfl
  | cons a later ih =>
    simp only [List.map_cons, List.mem_cons, not_or] at absent
    rw [setAll_cons, ih _ absent.2, get_set_of_ne s a.2 (Ne.symm absent.1)]

/-- Of several assignments to a property the last one counts. -/
theorem get_setAll (s : Style) {assignments : List (Property × Value)}
    (takes : ∀ a ∈ assignments, a.1.rule.Takes a.2) (p : Property) :
    (s.setAll assignments).get p = (lastValue? assignments p).getD (s.get p) := by
  induction assignments generalizing s with
  | nil => rfl
  | cons a later ih =>
    rw [setAll_cons, ih _ fun b member => takes b (List.mem_cons_of_mem _ member), lastValue?_cons]
    cases lastValue? later p with
    | some v => rfl
    | none =>
      by_cases same : a.1 = p
      · subst same
        simp [get_set_self s (takes a List.mem_cons_self)]
      · simp [same, get_set_of_ne s a.2 same]

end Style

end TreeDiagram
