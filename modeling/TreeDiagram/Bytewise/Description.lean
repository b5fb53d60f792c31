import TreeDiagram.Bytewise.Basic
import TreeDiagram.Description.Parser
/-!
Tree descriptions read byte by byte.

A label is a run of bytes, and every other word is one byte. A byte that begins no word is reported
together with the bytes that belong to the same character.
-/

namespace TreeDiagram

namespace Bytewise

/-- Whether a byte only goes on with a character. -/
def isContinuation (x : Char) : Bool :=
  decide ('\x80' ≤ x) && decide (x < '\u00c0')

theorem lt_of_peek? {text : String} {pos : Nat} {x : Char} (h : peek? text pos = some x) :
    pos < (bytes text).length := by
  obtain ⟨b, found, -⟩ := Option.map_eq_some_iff.mp h
  exact (List.getElem?_eq_some_iff.mp found).1

/-- The words from a position on, put behind those already read. -/
def lexFrom (text : String) (pos : Nat) (read : List Lexeme) : Except Halt (List Lexeme) :=
  match next : peek? text pos with
  | none => .ok read.reverse
  | some x =>
    have _ : pos < (bytes text).length := lt_of_peek? next
    if isBlank x then lexFrom text (pos + 1) read
    else
      match punctuation? x with
      | some token => do
        let span ← mark text ⟨pos, pos + 1⟩
        lexFrom text (pos + 1) (⟨token, span⟩ :: read)
      | none =>
        let stop := runEnd isLabelChar text (pos + 1)
        have _ : pos + 1 ≤ stop := Nat.le_add_right _ _
        if isLabelChar x then do
          let label ← slice text ⟨pos, stop⟩
          if maxLabelLength < label.utf8ByteSize then
            reject text (.tokenTooLong label.utf8ByteSize maxLabelLength) ⟨pos, stop⟩
          else lexFrom text stop (⟨.label label, ⟨pos, stop⟩⟩ :: read)
        else do
          let found ← charAt? text pos
          reject text (.lexical (found.getD '\ufffd')) ⟨pos, runEnd isContinuation text (pos + 1)⟩
termination_by (bytes text).length - pos

/-- The words of a tree description, with their places. -/
def lex (text : String) : Except Halt (List Lexeme) :=
  lexFrom text 0 []

/-- The tree that the words of a description describe. -/
def describe {K : Type} [Scalar K] (words : List Terminal) :
    Except ParseError (TreeDescription K) :=
  match TreeDescription.readAll words with
  | .ok d => .ok d
  | .error e =>
    match TreeDescription.loneLabel? words with
    | some label => .ok (TreeDescription.ofLabel label)
    | none => .error e

/-- The tree that a description describes. -/
def parse {K : Type} [Scalar K] (text : String) : Except Halt (TreeDescription K) := do
  let words := Terminal.ofLexemes (← lex text) text.utf8ByteSize
  (describe words).mapError .rejected

end Bytewise

end TreeDiagram
