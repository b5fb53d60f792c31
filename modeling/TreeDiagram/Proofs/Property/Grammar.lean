import TreeDiagram.Property.Line
import TreeDiagram.Proofs.Property.Meaning
import TreeDiagram.Proofs.Text.Runs
/-!
# The grammar of property lines

What a line says, and which texts say it. Names, numbers and texts without quotes are maximal runs,
so a phrase may depend on what stands behind it; each relation therefore takes the text behind its
phrase as its last argument. Positions are counted in bytes from the start of the line.
-/

namespace TreeDiagram

namespace Line

/-- A raw value, how it is written, and what is behind it. -/
inductive ValueText : Rule → List Char → List Char → List Char → Prop
  | decimal {min max : Nat} {digits behind : List Char} (notEmpty : digits ≠ [])
      (run : IsRun isDigit digits behind) : ValueText (.range min max) digits digits behind
  | hexadecimal {min max : Nat} {mark : Char} {digits behind : List Char}
      (isMark : mark = 'x' ∨ mark = 'X') (notEmpty : digits ≠ [])
      (run : IsRun isHexDigit digits behind) :
      ValueText (.range min max) ('0' :: mark :: digits) ('0' :: mark :: digits) behind
  | quoted {min max : Nat} {chars behind : List Char} (inside : ∀ c ∈ chars, isQuotable c = true) :
      ValueText (.length min max) chars ('"' :: (chars ++ ['"'])) behind
  | bare {min max : Nat} {chars behind : List Char} (notEmpty : chars ≠ [])
      (run : IsRun isBare chars behind) : ValueText (.length min max) chars chars behind

/-- How an assignment of a value to a property is written. -/
inductive PairText (p : Property) (v : Value) : List Char → List Char → Prop
  | intro {blanks blanks' raw written behind : List Char} (blank : Blanks blanks)
      (blank' : Blanks blanks') (value : ValueText p.rule raw written behind)
      (short : byteLength raw ≤ maxTokenLength) (means : Means raw v) (admits : p.rule.Admits v) :
      PairText p v (p.name.toList ++ (blanks ++ '=' :: (blanks' ++ written))) behind

/-- The pairs in a text from a position on, up to a closing bracket and what is behind it. -/
inductive PairsText : Nat → List Assignment → List Char → List Char → Prop
  | last {pos : Nat} {p : Property} {v : Value} {blanks written gap behind : List Char}
      (blank : Blanks blanks) (pair : PairText p v written (gap ++ ']' :: behind))
      (isGap : Gap gap) : PairsText pos
        [⟨p, v, ⟨pos + byteLength blanks, pos + byteLength blanks + byteLength written⟩⟩]
        (blanks ++ (written ++ (gap ++ ']' :: behind))) behind
  | more {pos : Nat} {p : Property} {v : Value} {pairs : List Assignment}
      {blanks written gap text behind : List Char} (blank : Blanks blanks)
      (pair : PairText p v written (gap ++ text)) (isGap : Gap gap)
      (rest : PairsText (pos + byteLength (blanks ++ (written ++ gap))) pairs text behind) :
      PairsText pos
        (⟨p, v, ⟨pos + byteLength blanks, pos + byteLength blanks + byteLength written⟩⟩ :: pairs)
        (blanks ++ (written ++ (gap ++ text))) behind

/-- The number of a node, how it is written, and what is behind it. -/
structure NodeText (id : NodeId) (digits behind : List Char) : Prop where
  notEmpty : digits ≠ []
  run : IsRun isDigit digits behind
  short : byteLength digits ≤ maxTokenLength
  denotes : Numeral.Denotes digits id
  named : id ≤ maxNodeId

/-- What may follow the closing bracket: a gap, and a comment or nothing. -/
inductive TailText : List Char → Prop
  | nothing {gap : List Char} (isGap : Gap gap) : TailText gap
  | comment {gap text : List Char} {mark : Char} (isGap : Gap gap)
      (isMark : mark = '/' ∨ mark = '#') : TailText (gap ++ mark :: text)

/-- What a line says: what it sets properties of, and the pairs in it. -/
inductive LineText : LineScope → List Assignment → List Char → Prop
  | number {id : NodeId} {blanks digits blanks' : List Char} (blank : Blanks blanks)
      (node : NodeText id digits blanks') (blank' : Blanks blanks') :
      LineText (.node id) [] (blanks ++ (digits ++ blanks'))
  | node {id : NodeId} {pairs : List Assignment} {blanks digits blanks' text tail : List Char}
      (blank : Blanks blanks) (node : NodeText id digits (blanks' ++ '[' :: text))
      (blank' : Blanks blanks')
      (inside : PairsText (byteLength (blanks ++ (digits ++ blanks')) + 1) pairs text tail)
      (ends : TailText tail) :
      LineText (.node id) pairs (blanks ++ (digits ++ (blanks' ++ '[' :: text)))
  | whole {pairs : List Assignment} {blanks text tail : List Char} (blank : Blanks blanks)
      (inside : PairsText (byteLength blanks + 1) pairs text tail) (ends : TailText tail) :
      LineText .global pairs (blanks ++ '[' :: text)

end Line

end TreeDiagram
