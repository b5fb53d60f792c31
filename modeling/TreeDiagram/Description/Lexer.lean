import TreeDiagram.ParseError
/-!
Splits a tree description into its words.

Labels are taken as long as they go on, and blanks separate words without being one. The first
character that belongs to no word, or the first label that is too long, ends the reading.
-/

namespace TreeDiagram

/-- The words from a byte position on, put behind those already read. -/
def lexFrom (pos : Nat) (cs : List Char) (read : List Lexeme) : Except ParseError (List Lexeme) :=
  match cs with
  | [] => .ok read.reverse
  | c :: rest =>
    if isBlank c then lexFrom (pos + 1) rest read
    else
      match punctuation? c with
      | some token => lexFrom (pos + 1) rest (⟨token, ⟨pos, pos + 1⟩⟩ :: read)
      | none =>
        if isLabelChar c then
          let text := c :: rest.takeWhile isLabelChar
          let stop := pos + text.length
          if maxLabelLength < text.length then
            .error ⟨.tokenTooLong text.length maxLabelLength, ⟨pos, stop⟩⟩
          else
            lexFrom stop (rest.dropWhile isLabelChar)
              (⟨.label (String.ofList text), ⟨pos, stop⟩⟩ :: read)
        else .error ⟨.lexical c, ⟨pos, pos + c.utf8Size⟩⟩
termination_by cs.length
decreasing_by
  all_goals simp only [List.length_cons]
  · omega
  · omega
  · exact Nat.lt_succ_of_le (List.dropWhile_suffix _).length_le

/-- The words of a tree description, with their places. -/
def lex (cs : List Char) : Except ParseError (List Lexeme) :=
  lexFrom 0 cs []

end TreeDiagram
