import TreeDiagram.Description.Lexer
import TreeDiagram.Tree.Basic
/-!
Reads a tree description such as `R(A(C,D),B)`.

A tree is a label, or a label with two trees in parentheses. The reader keeps two stacks: the
symbols that are still due, and the slots that new nodes go to. Two words of lookahead decide
whether a label is a leaf or branches. A label that is the whole description is rejected by the
stacks and accepted on its own.
-/

namespace TreeDiagram

/-- A word of a description, or its end, with its place. -/
structure Terminal where
  token : Option Token
  span : Span
  deriving DecidableEq, Repr

namespace Terminal

/-- The symbol that a word, or the end, matches. -/
def symbol (t : Terminal) : Symbol :=
  match t.token with
  | some token => token.symbol
  | none => .finish

/-- The label that a word is, if it is one. -/
def label? (t : Terminal) : Option String :=
  match t.token with
  | some (.label text) => some text
  | _ => none

/-- The words of a description followed by its end. -/
def ofLexemes (words : List Lexeme) (length : Nat) : List Terminal :=
  words.map (fun w => ⟨some w.token, w.span⟩) ++ [⟨none, ⟨length, length⟩⟩]

end Terminal

/-- A tree that was described, and the length of its longest label in bytes. -/
structure TreeDescription (K : Type) where
  tree : Tree K
  longestLabel : Nat
  deriving DecidableEq, Repr

namespace TreeDescription

/-- Where the next new node goes. The slot of a node's own label takes no node. -/
inductive Slot where
  | root
  | child (parent : Nat) (side : Side)
  | own (node : Nat)
  deriving DecidableEq, Repr

/-- What to do about the symbol that is due. -/
inductive Action where
  /-- A label with two subtrees. -/
  | branch
  /-- A label alone. -/
  | leaf
  /-- Give the subtree up, though a label is there. -/
  | drop
  /-- Go past a word that is due. -/
  | accept
  | reject
  deriving DecidableEq, Repr

/-- The decision by the symbol that is due, the word that comes now and the one behind it. -/
def action : Symbol → Symbol → Option Symbol → Action
  | .tree, .label, some .leftParen => .branch
  | .tree, .label, some .comma => .leaf
  | .tree, .label, some .rightParen => .leaf
  | .tree, .label, some .finish => .drop
  | .tree, _, _ => .reject
  | due, now, _ => if due = now then .accept else .reject

/-- A reading in progress: both stacks with their tops first, the tree so far, the longest label so
far, and what is left to read. -/
structure State (K : Type) where
  symbols : List Symbol
  slots : List Slot
  tree : Tree K
  longest : Nat
  rest : List Terminal
  deriving DecidableEq, Repr

/-- The error that another symbol is due. -/
def unexpected (found : Terminal) (due : Symbol) : ParseError :=
  .ofFault (.unexpectedWord found.token due) found.span

/-- Takes a slot off the stack. -/
def popSlot (slots : List Slot) (now : Terminal) : Except ParseError (Slot × List Slot) :=
  match slots with
  | [] => .error (.ofFault .unbalanced now.span)
  | slot :: slots => .ok (slot, slots)

/-- Puts a node into a slot. -/
def place {K : Type} (tree : Tree K) (slot : Slot) (node : Nat) (now : Terminal) :
    Except ParseError (Tree K) :=
  match slot with
  | .root => .ok (tree.setRoot node)
  | .child parent side => .ok (tree.attach parent side node)
  | .own _ => .error (.ofFault .misplacedLabel now.span)

/-- The symbols of a label with two subtrees. -/
def branchSymbols : List Symbol :=
  [.label, .leftParen, .tree, .comma, .tree, .rightParen]

variable {K : Type} [Scalar K]

/-- Makes a node for the label that comes now, puts it into the slot at the top, and puts the slots
of its own parts in the place of that one. -/
def expand (s : State K) (now : Terminal) (symbols : List Symbol) (slots : Nat → List Slot) :
    Except ParseError (State K) := do
  let label := now.label?.getD ""
  let node := s.tree.size
  let (slot, left) ← popSlot s.slots now
  let tree ← place (s.tree.add label) slot node now
  .ok { s with
    symbols := symbols
    slots := slots node ++ left
    tree := tree
    longest := max s.longest label.utf8ByteSize }

/-- One step of the reading at the word that comes now. -/
def step (s : State K) (now : Terminal) (behind : List Terminal) : Except ParseError (State K) :=
  match s.symbols with
  | [] => .error (unexpected now .finish)
  | due :: symbols =>
    match action due now.symbol (behind.head?.map Terminal.symbol) with
    | .branch =>
      expand s now (branchSymbols ++ symbols) fun node =>
        [.own node, .child node .left, .child node .right]
    | .leaf => expand s now (.label :: symbols) fun node => [.own node]
    | .drop => (popSlot s.slots now).map fun popped => { s with symbols, slots := popped.2 }
    | .accept =>
      if due = .label then
        (popSlot s.slots now).map fun popped =>
          { s with symbols, slots := popped.2, rest := behind }
      else .ok { s with symbols, rest := behind }
    | .reject => .error (unexpected now due)

/-- How many subtrees are due before anything else. -/
def leadingTrees (symbols : List Symbol) : Nat :=
  (symbols.takeWhile (· == .tree)).length

private theorem action_tree {due now : Symbol} {next : Option Symbol}
    (h : action due now next = .branch ∨ action due now next = .leaf ∨
      action due now next = .drop) : due = .tree := by
  unfold action at h
  split at h
  case h_6 => split at h <;> simp at h
  all_goals rfl

private theorem expand_progress {s next : State K} {now : Terminal} {symbols : List Symbol}
    {slots : Nat → List Slot} (h : expand s now symbols slots = .ok next) :
    next.rest = s.rest ∧ next.symbols = symbols := by
  unfold expand at h
  cases popped : popSlot s.slots now with
  | error e => simp [popped, bind, Except.bind] at h
  | ok slot =>
    simp only [popped, bind, Except.bind] at h
    cases placed : place (s.tree.add (now.label?.getD "")) slot.1 s.tree.size now with
    | error e => simp [placed] at h
    | ok tree =>
      simp only [placed] at h
      cases h
      exact ⟨rfl, rfl⟩

/-- A step goes past a word, or leaves fewer subtrees due before anything else. -/
theorem step_progress {s next : State K} {now : Terminal} {behind : List Terminal}
    (h : step s now behind = .ok next) :
    next.rest = behind ∨
      next.rest = s.rest ∧ leadingTrees next.symbols < leadingTrees s.symbols := by
  unfold step at h
  split at h
  · simp at h
  · next due symbols top =>
    rw [top]
    split at h
    · next chosen =>
      obtain ⟨rest, due'⟩ := expand_progress h
      rw [action_tree (.inl chosen), due']
      exact .inr ⟨rest, by simp [leadingTrees, branchSymbols]⟩
    · next chosen =>
      obtain ⟨rest, due'⟩ := expand_progress h
      rw [action_tree (.inr (.inl chosen)), due']
      exact .inr ⟨rest, by simp [leadingTrees]⟩
    · next chosen =>
      rw [action_tree (.inr (.inr chosen))]
      cases popped : popSlot s.slots now with
      | error e => simp [popped, Except.map] at h
      | ok slot =>
        simp only [popped, Except.map] at h
        cases h
        exact .inr ⟨rfl, by simp [leadingTrees]⟩
    · left
      split at h
      · cases popped : popSlot s.slots now with
        | error e => simp [popped, Except.map] at h
        | ok slot =>
          simp only [popped, Except.map] at h
          cases h
          rfl
      · cases h
        rfl
    · simp at h

/-- What is left to read after a step is less: fewer words, or as many words and fewer subtrees due
before anything else. -/
theorem step_decreases {s next : State K} {now : Terminal} {behind : List Terminal}
    (words : s.rest = now :: behind) (taken : step s now behind = .ok next) :
    Prod.Lex (· < ·) (· < ·) (next.rest.length, leadingTrees next.symbols)
      (s.rest.length, leadingTrees s.symbols) := by
  rcases step_progress taken with rest | ⟨rest, fewer⟩
  · exact Prod.Lex.left _ _ (by simp [rest, words])
  · rw [rest]
    exact Prod.Lex.right _ fewer

/-- Takes steps until all words are read. -/
def run (s : State K) : Except ParseError (State K) :=
  match words : s.rest with
  | [] => .ok s
  | now :: behind =>
    match taken : step s now behind with
    | .error e => .error e
    | .ok next =>
      have _ := step_decreases words taken
      run next
termination_by (s.rest.length, leadingTrees s.symbols)
decreasing_by assumption

/-- A reading before its first word. -/
def State.initial (words : List Terminal) : State K :=
  { symbols := [.tree, .finish], slots := [.root], tree := {}, longest := 0, rest := words }

/-- Reads all words. What is still due then, or a tree without a root, is an error at the end. -/
def readAll (words : List Terminal) : Except ParseError (TreeDescription K) := do
  let s ← run (State.initial words)
  if s.symbols.isEmpty && s.tree.root.isSome then .ok ⟨s.tree, s.longest⟩
  else .error (.ofFault .incomplete ((words.getLast?.map Terminal.span).getD ⟨0, 0⟩))

/-- The label that is the whole description, if it is a label alone. -/
def loneLabel? : List Terminal → Option String
  | [word, _] => word.label?
  | _ => none

/-- A description of a single node. -/
def ofLabel (label : String) : TreeDescription K :=
  ⟨Tree.single label, label.utf8ByteSize⟩

/-- The tree that a description describes. -/
def parse (cs : List Char) : Except ParseError (TreeDescription K) := do
  let words := Terminal.ofLexemes (← lex cs) (byteLength cs)
  match readAll words with
  | .ok d => .ok d
  | .error e =>
    match loneLabel? words with
    | some label => .ok (ofLabel label)
    | none => .error e

end TreeDescription

end TreeDiagram
