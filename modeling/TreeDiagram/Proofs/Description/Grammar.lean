import TreeDiagram.Description.Parser
/-!
# The grammar of tree descriptions

A tree is a label, or a label with two trees in parentheses. A derivation records which of the two
it is at every place; its words are what is written for it, and blanks may stand around them.
-/

namespace TreeDiagram

namespace TreeDescription

/-- How a description is derived: a label alone, or a label with two trees. -/
inductive Derivation where
  | leaf (label : String)
  | branch (label : String) (left right : Derivation)
  deriving DecidableEq, Repr

namespace Derivation

/-- The words of a description, from left to right. -/
def words : Derivation → List Token
  | leaf label => [.label label]
  | branch label l r =>
    .label label :: .leftParen :: (l.words ++ .comma :: (r.words ++ [.rightParen]))

/-- The labels in root, left, right order. -/
def labels : Derivation → List String
  | leaf label => [label]
  | branch label l r => label :: (l.labels ++ r.labels)

/-- The number of nodes. -/
def size : Derivation → Nat
  | leaf _ => 1
  | branch _ l r => l.size + r.size + 1

/-- The length of the longest label in bytes. -/
def longest : Derivation → Nat
  | leaf label => label.utf8ByteSize
  | branch label l r => max label.utf8ByteSize (max l.longest r.longest)

end Derivation

/-- Words in a text, with places, that a description can consist of. -/
inductive Derives : Derivation → List Terminal → Prop
  | leaf {label : String} {w : Terminal} (word : w.token = some (.label label)) :
      Derives (.leaf label) [w]
  | branch {label : String} {l r : Derivation} {w opening comma closing : Terminal}
      {ls rs : List Terminal} (word : w.token = some (.label label))
      (opens : opening.token = some .leftParen) (left : Derives l ls)
      (divides : comma.token = some .comma) (right : Derives r rs)
      (closes : closing.token = some .rightParen) :
      Derives (.branch label l r) (w :: opening :: (ls ++ comma :: (rs ++ [closing])))

theorem derives_iff {d : Derivation} {ws : List Terminal} :
    Derives d ws ↔ ws.map Terminal.token = d.words.map some := by
  constructor
  · intro derives
    induction derives with
    | leaf word => simp [Derivation.words, word]
    | branch word opens _ divides _ closes ihl ihr =>
      simp [Derivation.words, word, opens, divides, closes, ihl, ihr]
  · intro same
    induction d generalizing ws with
    | leaf label =>
      obtain ⟨w, rest, rfl, word, nothing⟩ := List.map_eq_cons_iff.mp same
      rw [List.map_eq_nil_iff.mp nothing]
      exact .leaf word
    | branch label l r ihl ihr =>
      simp only [Derivation.words, List.map_cons, List.map_append, List.map_nil] at same
      obtain ⟨w, _, rfl, word, same⟩ := List.map_eq_cons_iff.mp same
      obtain ⟨opening, _, rfl, opens, same⟩ := List.map_eq_cons_iff.mp same
      obtain ⟨ls, _, rfl, left, same⟩ := List.map_eq_append_iff.mp same
      obtain ⟨comma, _, rfl, divides, same⟩ := List.map_eq_cons_iff.mp same
      obtain ⟨rs, _, rfl, right, same⟩ := List.map_eq_append_iff.mp same
      obtain ⟨closing, _, rfl, closes, same⟩ := List.map_eq_cons_iff.mp same
      rw [List.map_eq_nil_iff.mp same]
      exact .branch word opens (ihl left) divides (ihr right) closes

/-- The words that match a stack of due symbols. -/
inductive Matches : List Symbol → List Terminal → Prop
  | done : Matches [] []
  | word {due : Symbol} {symbols : List Symbol} {w : Terminal} {ws : List Terminal}
      (notTree : due ≠ .tree) (same : w.symbol = due) (rest : Matches symbols ws) :
      Matches (due :: symbols) (w :: ws)
  | tree {d : Derivation} {symbols : List Symbol} {ws rest : List Terminal}
      (derives : Derives d ws) (behind : Matches symbols rest) :
      Matches (.tree :: symbols) (ws ++ rest)

theorem Matches.of_word {due : Symbol} {symbols : List Symbol} {ws : List Terminal}
    (h : Matches (due :: symbols) ws) (notTree : due ≠ .tree) :
    ∃ w rest, ws = w :: rest ∧ w.symbol = due ∧ Matches symbols rest := by
  cases h with
  | word _ same rest => exact ⟨_, _, rfl, same, rest⟩
  | tree => exact absurd rfl notTree

theorem Matches.of_tree {symbols : List Symbol} {ws : List Terminal}
    (h : Matches (.tree :: symbols) ws) :
    ∃ d ts rest, ws = ts ++ rest ∧ Derives d ts ∧ Matches symbols rest := by
  cases h with
  | word notTree => exact absurd rfl notTree
  | tree derives behind => exact ⟨_, _, _, rfl, derives, behind⟩

theorem symbol_of_token {w : Terminal} {token : Token} (word : w.token = some token) :
    w.symbol = token.symbol := by
  rw [Terminal.symbol, word]

theorem token_of_symbol {w : Terminal} (token : Token) (notLabel : token.symbol ≠ .label)
    (same : w.symbol = token.symbol) : w.token = some token := by
  unfold Terminal.symbol at same
  split at same
  · next found word =>
    rw [word]
    cases found <;> cases token <;> simp_all [Token.symbol]
  · cases token <;> simp [Token.symbol] at same

theorem label_of_symbol {w : Terminal} (same : w.symbol = .label) :
    ∃ label, w.token = some (.label label) := by
  unfold Terminal.symbol at same
  split at same
  · next found word =>
    cases found with
    | label text => exact ⟨text, word⟩
    | _ => simp [Token.symbol] at same
  · simp at same

/-- A label with two trees matches like the symbols it consists of. -/
theorem Matches.of_branchSymbols {symbols : List Symbol} {ws : List Terminal}
    (h : Matches (branchSymbols ++ symbols) ws) : Matches (.tree :: symbols) ws := by
  obtain ⟨w, _, rfl, word, h⟩ := Matches.of_word h (by simp)
  obtain ⟨opening, _, rfl, opens, h⟩ := Matches.of_word h (by simp)
  obtain ⟨l, ls, _, rfl, left, h⟩ := Matches.of_tree h
  obtain ⟨comma, _, rfl, divides, h⟩ := Matches.of_word h (by simp)
  obtain ⟨r, rs, _, rfl, right, h⟩ := Matches.of_tree h
  obtain ⟨closing, rest, rfl, closes, h⟩ := Matches.of_word h (by simp)
  obtain ⟨label, word⟩ := label_of_symbol word
  have whole : Derives (.branch label l r) (w :: opening :: (ls ++ comma :: (rs ++ [closing]))) :=
    .branch word (token_of_symbol .leftParen (by simp [Token.symbol]) opens) left
      (token_of_symbol .comma (by simp [Token.symbol]) divides) right
      (token_of_symbol .rightParen (by simp [Token.symbol]) closes)
  simpa using Matches.tree whole h

end TreeDescription

end TreeDiagram
