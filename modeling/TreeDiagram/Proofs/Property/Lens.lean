import TreeDiagram.Proofs.Property.Meaning
import TreeDiagram.Proofs.Property.Pass
/-!
# Reading and writing one property

A property of a style is read and written like a variable of its kind: what a raw text is validated
to is what is read from then on, in full, the last value written counts, different properties do not
meet, and a value of the other kind is not written at all.
-/

namespace TreeDiagram

namespace Style

variable {p q : Property} {v w : Value}

/-- What is read of a property after a value was written to another one or to the same. -/
theorem get_set (s : Style) (p q : Property) (v : Value) :
    (s.set p v).get q = if p = q ∧ p.rule.Takes v then v else s.get q := by
  by_cases same : p = q
  · subst same
    by_cases takes : p.rule.Takes v
    · rw [if_pos ⟨rfl, takes⟩, get_set_self s takes]
    · rw [if_neg (fun both => takes both.2), set_of_not_takes s takes]
  · rw [if_neg (fun both => same both.1), get_set_of_ne s v same]

theorem set_get (s : Style) (p : Property) : s.set p (s.get p) = s := by
  apply ext_get
  intro q
  rw [get_set]
  split
  · next both => rw [both.1]
  · rfl

theorem set_set_self (s : Style) (v : Value) (takes : p.rule.Takes w) :
    (s.set p v).set p w = s.set p w := by
  apply ext_get
  intro q
  simp only [get_set]
  by_cases same : p = q
  · rw [if_pos ⟨same, takes⟩, if_pos ⟨same, takes⟩]
  · have apart : ∀ u, ¬(p = q ∧ p.rule.Takes u) := fun _ both => same both.1
    rw [if_neg (apart w), if_neg (apart v), if_neg (apart w)]

theorem set_comm (s : Style) (v w : Value) (different : p ≠ q) :
    (s.set p v).set q w = (s.set q w).set p v := by
  apply ext_get
  intro r
  simp only [get_set]
  -- no property is both of the two that are written
  by_cases second : q = r ∧ q.rule.Takes w
  · have first : ¬(p = r ∧ p.rule.Takes v) := by
      rintro ⟨rfl, -⟩
      exact different second.1.symm
    rw [if_pos second, if_neg first, if_pos second]
  · rw [if_neg second, if_neg second]

end Style

namespace Property

/-- A number that a property takes fits in 32 bits. -/
theorem le_maxWord_of_admits {p : Property} {n : Nat} (admits : p.rule.Admits (.number n)) :
    n ≤ maxWord := by
  have fits := p.rule_fits
  cases rule : p.rule with
  | range min max =>
    rw [rule] at admits fits
    exact Nat.le_trans admits.2 fits
  | length min max =>
    rw [rule] at admits
    exact admits.elim

end Property

namespace Style

/-- What a raw text gives to a property is stored in full and read back, and nothing else is
written: properties of a style obey the laws of a lens, and values of the wrong kind change nothing.
-/
theorem validated_stored (s : Style) (p : Property) (raw : String) (v : Value)
    (valid : p.validate raw = .ok v) :
    (∀ n, v = .number n → n ≤ maxWord) ∧
      (s.set p v).get p = v ∧
      (∀ q, q ≠ p → (s.set p v).get q = s.get q) ∧
      (∀ q, s.set q (s.get q) = s) ∧
      (∀ u, (s.set p u).set p v = s.set p v) ∧
      (∀ q w, q ≠ p → (s.set p v).set q w = (s.set q w).set p v) ∧
      ∀ q w, ¬q.rule.Takes w → s.set q w = s := by
  have admits : p.rule.Admits v := Rule.admits_of_validate valid
  have takes : p.rule.Takes v := Rule.takes_of_admits admits
  refine ⟨?_, s.get_set_self takes, ?_, s.set_get, ?_, ?_, ?_⟩
  · rintro n rfl
    exact Property.le_maxWord_of_admits admits
  · intro q other
    exact s.get_set_of_ne v (Ne.symm other)
  · intro u
    exact s.set_set_self u takes
  · intro q w other
    exact s.set_comm v w (Ne.symm other)
  · intro q w wrong
    exact s.set_of_not_takes wrong

theorem validated_stored_increment :
    Property.validate .edgeXIncrement "0x1F" = .ok (.number 31) ∧
      (set {} .edgeXIncrement (.number 31)).get .edgeXIncrement = .number 31 ∧
      (set {} .edgeXIncrement (.number 31)).get .edgeYIncrement = .number 5 ∧
      set {} .edgeYIncrement (.text "31") = {} := by
  have valid : Property.validate .edgeXIncrement "0x1F" = .ok (.number 31) := by decide +kernel
  obtain ⟨-, reads, others, -, -, -, wrong⟩ := validated_stored {} .edgeXIncrement "0x1F" _ valid
  exact ⟨valid, reads, others .edgeYIncrement (by decide), wrong .edgeYIncrement _ not_false⟩

end Style

end TreeDiagram
