import TreeDiagram.Proofs.Description.Mistake
import TreeDiagram.Proofs.Tree.Paths
/-!
# Slots and symbols in step

In every state of a reading the slots are those that the due symbols call for: one for a node to
hang from for every tree that is due, and the slot of a label for every label. So a slot is there
whenever one is taken, it is of the right kind, and both the symbols and the words come to their
ends together. Of the errors that a reading can give, only that of an unexpected word ever occurs.
-/

namespace TreeDiagram

namespace TreeDescription

/-! ## What the symbols call for -/

/-- What a slot is for. -/
inductive SlotKind where
  /-- Takes the node of a subtree. -/
  | subtree
  /-- Given up where the label of a node is read. -/
  | label
  deriving DecidableEq, Repr

/-- What a slot is for. -/
def Slot.kind : Slot → SlotKind
  | .root | .child _ _ => .subtree
  | .own _ => .label

/-- The kind of slot that a due symbol calls for. The marks between trees call for none. -/
def slotKind? : Symbol → Option SlotKind
  | .tree => some .subtree
  | .label => some .label
  | .leftParen | .rightParen | .comma | .finish => none

/-- The slots are those that the due symbols call for, in their order. -/
def InStep (symbols : List Symbol) (slots : List Slot) : Prop :=
  slots.map Slot.kind = symbols.filterMap slotKind?

theorem InStep.of_tree {symbols : List Symbol} {slots : List Slot}
    (h : InStep (.tree :: symbols) slots) :
    ∃ slot left, slots = slot :: left ∧ slot.kind = .subtree ∧ InStep symbols left :=
  List.map_eq_cons_iff.mp h

theorem InStep.of_label {symbols : List Symbol} {slots : List Slot}
    (h : InStep (.label :: symbols) slots) :
    ∃ slot left, slots = slot :: left ∧ slot.kind = .label ∧ InStep symbols left :=
  List.map_eq_cons_iff.mp h

theorem inStep_cons {symbol : Symbol} {symbols : List Symbol} {slot : Slot} {slots : List Slot}
    (calls : slotKind? symbol = some slot.kind) :
    InStep (symbol :: symbols) (slot :: slots) ↔ InStep symbols slots := by
  simp [InStep, calls]

theorem inStep_mark {symbol : Symbol} {symbols : List Symbol} {slots : List Slot}
    (notTree : symbol ≠ .tree) (notLabel : symbol ≠ .label) :
    InStep (symbol :: symbols) slots ↔ InStep symbols slots := by
  cases symbol with
  | tree => exact absurd rfl notTree
  | label => exact absurd rfl notLabel
  | _ => exact Iff.rfl

theorem inStep_branchSymbols {symbols : List Symbol} {slots : List Slot} (node : Nat) :
    InStep (branchSymbols ++ symbols)
        (.own node :: .child node .left :: .child node .right :: slots) ↔ InStep symbols slots := by
  simp only [branchSymbols, List.cons_append, List.nil_append]
  rw [inStep_cons rfl, inStep_mark (by simp) (by simp), inStep_cons rfl,
    inStep_mark (by simp) (by simp), inStep_cons rfl, inStep_mark (by simp) (by simp)]

variable {K : Type}

theorem exists_place {slot : Slot} (takes : slot.kind = .subtree) (t : Tree K) (i : Nat)
    (now : Terminal) : ∃ t', place t slot i now = .ok t' := by
  cases slot with
  | root => exact ⟨_, rfl⟩
  | child parent side => exact ⟨_, rfl⟩
  | own node => cases takes

theorem isSome_root_of_place {t t' : Tree K} {slot : Slot} {i : Nat} {now : Terminal}
    (placed : place t slot i now = .ok t') :
    t'.root.isSome ↔ slot = .root ∨ t.root.isSome := by
  cases slot with
  | root =>
    cases placed
    simp [Tree.setRoot]
  | child parent side =>
    cases placed
    simp [Tree.attach, Tree.modify]
  | own node => cases placed

theorem labelAt_modify (t : Tree K) (i : Nat) {f : Node K → Node K}
    (kept : ∀ n, (f n).label = n.label) : (t.modify i f).labelAt = t.labelAt := by
  funext j
  rw [Tree.labelAt, Tree.node?_modify]
  split
  · cases here : t.node? j <;> simp [Tree.labelAt, here, kept]
  · rfl

theorem labelAt_of_place {t t' : Tree K} {slot : Slot} {i : Nat} {now : Terminal}
    (placed : place t slot i now = .ok t') : t'.labelAt = t.labelAt := by
  cases slot with
  | root =>
    cases placed
    exact labelAt_modify t i fun _ => rfl
  | child parent side =>
    cases placed
    simp only [Tree.attach]
    rw [labelAt_modify _ _ (f := fun n => { n with parent := some parent }) fun _ => rfl]
    cases side with
    | left => exact labelAt_modify t parent (f := fun n => { n with left := some i }) fun _ => rfl
    | right => exact labelAt_modify t parent (f := fun n => { n with right := some i }) fun _ => rfl
  | own node => cases placed

section Steps

variable [Scalar K]

theorem Step.inStep {s next : State K} {now : Terminal} {behind : List Terminal}
    (taken : Step s now behind next) (h : InStep s.symbols s.slots) :
    InStep next.symbols next.slots := by
  cases taken with
  | branch due _ _ popped =>
    rw [due, popped] at h
    obtain ⟨_, _, same, -, rest⟩ := h.of_tree
    cases same
    exact (inStep_branchSymbols _).mpr rest
  | leaf due _ _ popped =>
    rw [due, popped] at h
    obtain ⟨_, _, same, -, rest⟩ := h.of_tree
    cases same
    exact (inStep_cons rfl).mpr rest
  | drop due _ _ popped =>
    rw [due, popped] at h
    obtain ⟨_, _, same, -, rest⟩ := h.of_tree
    cases same
    exact rest
  | label due _ popped =>
    rw [due, popped] at h
    obtain ⟨_, _, same, -, rest⟩ := h.of_label
    cases same
    exact rest
  | accept due notTree notLabel =>
    rw [due] at h
    exact (inStep_mark notTree notLabel).mp h

/-- With the slots that the symbols call for a step can only fail at an unexpected word. -/
theorem exists_step_or_unexpected {s : State K} {due : Symbol} {symbols : List Symbol}
    (top : s.symbols = due :: symbols) (h : InStep s.symbols s.slots) (now : Terminal)
    (behind : List Terminal) :
    (∃ next, Step s now behind next) ∨ step s now behind = .error (unexpected now due) := by
  rw [top] at h
  cases chosen : action due now.symbol (behind.head?.map Terminal.symbol) with
  | branch =>
    obtain ⟨rfl, word, follows⟩ := action_eq_branch.mp chosen
    obtain ⟨slot, left, popped, takes, -⟩ := h.of_tree
    obtain ⟨tree, placed⟩ := exists_place takes (s.tree.add (now.label?.getD "")) s.tree.size now
    exact .inl ⟨_, .branch top word follows popped placed⟩
  | leaf =>
    obtain ⟨rfl, word, follows⟩ := action_eq_leaf.mp chosen
    obtain ⟨slot, left, popped, takes, -⟩ := h.of_tree
    obtain ⟨tree, placed⟩ := exists_place takes (s.tree.add (now.label?.getD "")) s.tree.size now
    exact .inl ⟨_, .leaf top word follows popped placed⟩
  | drop =>
    obtain ⟨rfl, word, follows⟩ := action_eq_drop.mp chosen
    obtain ⟨slot, left, popped, -⟩ := h.of_tree
    exact .inl ⟨_, .drop top word follows popped⟩
  | accept =>
    obtain ⟨notTree, word⟩ := action_eq_accept.mp chosen
    by_cases isLabel : due = .label
    · subst isLabel
      obtain ⟨slot, left, popped, -⟩ := h.of_label
      exact .inl ⟨_, .label top word popped⟩
    · exact .inl ⟨_, .accept top notTree isLabel word⟩
  | reject => exact .inr (by simp only [step, top, chosen])

/-! ## The end comes last -/

/-- The end is there once, and nothing comes behind it. -/
def EndsOnce (symbols : List Symbol) : Prop :=
  ∃ front, symbols = front ++ [.finish] ∧ .finish ∉ front

theorem not_endsOnce_nil : ¬EndsOnce [] := by
  rintro ⟨front, same, -⟩
  simp at same

theorem endsOnce_cons {symbol : Symbol} {symbols : List Symbol} (notEnd : symbol ≠ .finish) :
    EndsOnce (symbol :: symbols) ↔ EndsOnce symbols := by
  constructor
  · rintro ⟨front, same, once⟩
    cases front with
    | nil => exact absurd (List.cons.inj same).1 notEnd
    | cons first front =>
      exact ⟨front, (List.cons.inj same).2, fun member => once (List.mem_cons_of_mem _ member)⟩
  · rintro ⟨front, rfl, once⟩
    refine ⟨symbol :: front, rfl, fun member => ?_⟩
    rcases List.mem_cons.mp member with same | member
    · exact notEnd same.symm
    · exact once member

theorem eq_nil_of_endsOnce_finish {symbols : List Symbol} (h : EndsOnce (.finish :: symbols)) :
    symbols = [] := by
  obtain ⟨front, same, once⟩ := h
  cases front with
  | nil => exact (List.cons.inj same).2
  | cons first front =>
    cases (List.cons.inj same).1
    exact absurd List.mem_cons_self once

/-- Symbols and words are both at their ends, or both have an end to come. -/
def EndTogether (s : State K) : Prop :=
  s.symbols = [] ∧ s.rest = [] ∨ EndsOnce s.symbols ∧ EndsOnce (s.rest.map Terminal.symbol)

omit [Scalar K] in
theorem EndTogether.nil_iff {s : State K} (h : EndTogether s) : s.symbols = [] ↔ s.rest = [] := by
  rcases h with ⟨symbols, rest⟩ | ⟨symbols, rest⟩
  · simp [symbols, rest]
  · constructor
    · exact fun nothing => absurd (nothing ▸ symbols) not_endsOnce_nil
    · intro nothing
      rw [nothing] at rest
      exact absurd rest not_endsOnce_nil

theorem Step.endTogether {s next : State K} {now : Terminal} {behind : List Terminal}
    (taken : Step s now behind next) (words : s.rest = now :: behind) (h : EndTogether s) :
    EndTogether next := by
  obtain ⟨symbols, rest⟩ : EndsOnce s.symbols ∧ EndsOnce (s.rest.map Terminal.symbol) := by
    rcases h with ⟨-, nothing⟩ | both
    · cases words.symm.trans nothing
    · exact both
  cases taken with
  | branch due =>
    rw [due, endsOnce_cons (by simp)] at symbols
    refine .inr ⟨?_, rest⟩
    simp only [branchSymbols, List.cons_append, List.nil_append]
    iterate 6 rw [endsOnce_cons (by simp)]
    exact symbols
  | leaf due =>
    rw [due, endsOnce_cons (by simp)] at symbols
    exact .inr ⟨(endsOnce_cons (by simp)).mpr symbols, rest⟩
  | drop due =>
    rw [due, endsOnce_cons (by simp)] at symbols
    exact .inr ⟨symbols, rest⟩
  | label due word =>
    rw [due, endsOnce_cons (by simp)] at symbols
    rw [words, List.map_cons, word, endsOnce_cons (by simp)] at rest
    exact .inr ⟨symbols, rest⟩
  | @accept symbol _ due _ _ word =>
    rw [words, List.map_cons, word] at rest
    rw [due] at symbols
    by_cases isEnd : symbol = .finish
    · subst isEnd
      exact .inl ⟨eq_nil_of_endsOnce_finish symbols,
        List.map_eq_nil_iff.mp (eq_nil_of_endsOnce_finish rest)⟩
    · exact .inr ⟨(endsOnce_cons isEnd).mp symbols, (endsOnce_cons isEnd).mp rest⟩

/-! ## The nodes that are made -/

/-- The root has a node, or a slot is kept for it, unless that slot was given up. -/
theorem Step.rooted {s next : State K} {now : Terminal} {behind : List Terminal}
    (taken : Step s now behind next) (words : s.rest = now :: behind) (ordered : Ordered s.symbols)
    (inStep : InStep s.symbols s.slots) (h : s.tree.root.isSome ∨ .root ∈ s.slots ∨ Stuck s) :
    next.tree.root.isSome ∨ .root ∈ next.slots ∨ Stuck next := by
  have h : s.tree.root.isSome ∨ .root ∈ s.slots := by
    rcases h with h | h | ⟨now', behind', words', noStep⟩
    · exact .inl h
    · exact .inr h
    · cases words.symm.trans words'
      exact absurd taken (noStep next)
  have popped {slot : Slot} {slots : List Slot} (takes : s.slots = slot :: slots) :
      (slot = .root ∨ s.tree.root.isSome) ∨ .root ∈ slots := by
    rcases h with h | h
    · exact .inl (.inr h)
    · rw [takes] at h
      exact (List.mem_cons.mp h).imp (fun same => .inl same.symm) id
  cases taken with
  | branch due _ _ takes placed =>
    rw [isSome_root_of_place placed]
    refine (popped takes).imp_right fun kept => .inl ?_
    simpa using kept
  | leaf due _ _ takes placed =>
    rw [isSome_root_of_place placed]
    exact (popped takes).imp_right fun kept => .inl (List.mem_cons_of_mem _ kept)
  | drop due word => exact .inr (.inr (stuck_of_drop words ordered due word rfl rfl))
  | label due _ takes =>
    rw [due, takes] at inStep
    obtain ⟨_, _, same, kind, -⟩ := inStep.of_label
    cases same
    rcases popped takes with (rfl | rooted) | kept
    · cases kind
    · exact .inl rooted
    · exact .inr (.inl kept)
  | accept => exact h.imp_right .inl

/-- A node is only made at a label, and gets this label. -/
theorem Step.label_of_new {s next : State K} {now : Terminal} {behind : List Terminal}
    (taken : Step s now behind next) (new : s.tree.size < next.tree.size) :
    ∃ label, now.label? = some label ∧ next.tree.labelAt s.tree.size = label := by
  have made {tree : Tree K} {slot : Slot} (word : now.symbol = .label)
      (placed : place (s.tree.add (now.label?.getD "")) slot s.tree.size now = .ok tree) :
      ∃ label, now.label? = some label ∧ tree.labelAt s.tree.size = label := by
    obtain ⟨label, token⟩ := label_of_symbol word
    have isLabel : now.label? = some label := by rw [Terminal.label?, token]
    refine ⟨label, isLabel, ?_⟩
    rw [labelAt_of_place placed, isLabel]
    simp [Tree.labelAt, Tree.node?, Tree.add, Tree.size, Node.new]
  cases taken with
  | branch _ word _ _ placed => exact made word placed
  | leaf _ word _ _ placed => exact made word placed
  | drop => exact absurd new (Nat.lt_irrefl _)
  | label => exact absurd new (Nat.lt_irrefl _)
  | accept => exact absurd new (Nat.lt_irrefl _)

/-! ## What all states keep -/

/-- What holds of the states that a reading goes through. -/
structure Sound (s : State K) : Prop where
  inStep : InStep s.symbols s.slots
  together : EndTogether s
  ordered : Ordered s.symbols
  rooted : s.tree.root.isSome ∨ .root ∈ s.slots ∨ Stuck s

theorem endsOnce_ofLexemes (words : List Lexeme) (length : Nat) :
    EndsOnce ((Terminal.ofLexemes words length).map Terminal.symbol) := by
  refine ⟨words.map fun w => w.token.symbol, ?_, ?_⟩
  · simp [Terminal.ofLexemes, Terminal.symbol, Function.comp_def]
  · intro member
    obtain ⟨w, -, same⟩ := List.mem_map.mp member
    cases token : w.token <;> simp [token, Token.symbol] at same

theorem sound_initial (words : List Lexeme) (length : Nat) :
    Sound (State.initial (K := K) (Terminal.ofLexemes words length)) where
  inStep := rfl
  together := .inr ⟨⟨[.tree], rfl, by simp⟩, endsOnce_ofLexemes words length⟩
  ordered := by simp [State.initial, Ordered]
  rooted := .inr (.inl (by simp [State.initial]))

theorem Sound.next {s next : State K} (h : Sound s) {now : Terminal} {behind : List Terminal}
    (words : s.rest = now :: behind) (taken : Step s now behind next) : Sound next where
  inStep := taken.inStep h.inStep
  together := taken.endTogether words h.together
  ordered := taken.ordered h.ordered
  rooted := taken.rooted words h.ordered h.inStep h.rooted

theorem Reaches.sound {s t : State K} (reached : Reaches s t) (h : Sound s) : Sound t := by
  induction reached with
  | start => exact h
  | step _ words taken ih => exact ih.next words taken

/-- Where words are left a symbol is due, and a step is taken or refused for the word there. -/
theorem Sound.step_error {s : State K} (h : Sound s) {now : Terminal} {behind : List Terminal}
    (words : s.rest = now :: behind) {e : ParseError} (failed : step s now behind = .error e) :
    ∃ due symbols, s.symbols = due :: symbols ∧ e = unexpected now due := by
  obtain ⟨due, symbols, top⟩ : ∃ due symbols, s.symbols = due :: symbols := by
    refine List.exists_cons_of_ne_nil fun nothing => ?_
    cases words.symm.trans (h.together.nil_iff.mp nothing)
  rcases exists_step_or_unexpected top h.inStep now behind with ⟨next, taken⟩ | refused
  · rw [step_eq_ok.mpr taken] at failed
    cases failed
  · exact ⟨due, symbols, top, Except.error.inj (failed.symm.trans refused)⟩

/-- A reading that comes to its end has nothing due and a tree with a root. -/
theorem Sound.complete {s : State K} (h : Sound s) (finished : s.rest = []) :
    s.symbols = [] ∧ s.tree.root.isSome := by
  have nothing := h.together.nil_iff.mpr finished
  refine ⟨nothing, ?_⟩
  rcases h.rooted with rooted | kept | ⟨now, behind, words, -⟩
  · exact rooted
  · have := h.inStep
    rw [nothing] at this
    rw [List.map_eq_nil_iff.mp this] at kept
    cases kept
  · cases words.symm.trans finished

/-- A reading that fails does so at an unexpected word. -/
theorem unexpected_of_readAll {words : List Lexeme} {length : Nat} {e : ParseError}
    (failed : readAll (K := K) (Terminal.ofLexemes words length) = .error e) :
    ∃ now ∈ Terminal.ofLexemes words length, ∃ due, e = unexpected now due := by
  have sound := sound_initial (K := K) words length
  rcases reaches_of_run (State.initial (K := K) (Terminal.ofLexemes words length)) with
    ⟨last, done, reached, finished⟩ | ⟨t, now, behind, e', stopped, reached, rest, refused⟩
  · obtain ⟨nothing, rooted⟩ := (reached.sound sound).complete finished
    simp [readAll, done, bind, Except.bind, nothing, rooted] at failed
  · obtain ⟨due, -, -, same⟩ := (reached.sound sound).step_error rest refused
    obtain ⟨read, whole⟩ := reached.exists_read
    rw [readAll, stopped] at failed
    refine ⟨now, ?_, due, (Except.error.inj failed).symm.trans same⟩
    rw [rest] at whole
    change Terminal.ofLexemes words length = read ++ now :: behind at whole
    simp [whole]

omit [Scalar K] in
/-- The wording of an unexpected word is none of the others that a reading knows. -/
theorem message_unexpected (now : Terminal) (due : Symbol) : (unexpected now due).message ∉
    ["unbalanced tree description", "label found where a subtree was expected",
      "incomplete tree description"] := by
  obtain ⟨rest, text⟩ : ∃ rest, (unexpected now due).message = "unexpected " ++ rest := by
    refine ⟨Fault.describeWord now.token ++ (", expected " ++ due.describe), ?_⟩
    change "unexpected " ++ Fault.describeWord now.token ++ ", expected " ++ due.describe = _
    rw [String.append_assoc, String.append_assoc]
  have apart : ∀ other ∈ ["unbalanced tree description",
      "label found where a subtree was expected", "incomplete tree description"],
      ¬"unexpected ".toList <+: other.toList := by
    decide
  refine fun member => apart _ member ?_
  rw [text, String.toList_append]
  exact List.prefix_append _ _

/-- In every state of the reading of a description the slots are those that the due symbols call
for, and symbols are due as long as words are left. A step that fails does so because the word that
comes is not the one that is due, and a node is made for a label only. So whatever is wrong with a
description, the reading names an unexpected word and never gives one of its other errors. -/
theorem stacks_stay_in_step (words : List Lexeme) (length : Nat) :
    (∀ t : State K, Reaches (State.initial (Terminal.ofLexemes words length)) t →
      InStep t.symbols t.slots ∧ (t.symbols = [] → t.rest = []) ∧
      ∀ now behind, t.rest = now :: behind →
        (∀ e, step t now behind = .error e →
          ∃ due symbols, t.symbols = due :: symbols ∧ e = unexpected now due) ∧
        ∀ next, step t now behind = .ok next → t.tree.size < next.tree.size →
          ∃ label, now.label? = some label ∧ next.tree.labelAt t.tree.size = label) ∧
    ∀ e, readAll (K := K) (Terminal.ofLexemes words length) = .error e →
      (∃ now ∈ Terminal.ofLexemes words length, ∃ due, e = unexpected now due) ∧
      e.message ∉ ["unbalanced tree description", "label found where a subtree was expected",
        "incomplete tree description"] := by
  refine ⟨fun t reached => ?_, fun e failed => ?_⟩
  · have sound := reached.sound (sound_initial words length)
    refine ⟨sound.inStep, sound.together.nil_iff.mp, fun now behind rest => ⟨fun e failed => ?_,
      fun next taken new => ?_⟩⟩
    · exact sound.step_error rest failed
    · exact (step_eq_ok.mp taken).label_of_new new
  · obtain ⟨now, inText, due, rfl⟩ := unexpected_of_readAll failed
    exact ⟨⟨now, inText, due, rfl⟩, message_unexpected now due⟩

/-- Behind the first word of a description without its last parenthesis, and at the word where its
reading fails. -/
theorem stacks_stay_in_step_unclosed :
    (∃ t : State Rat, Reaches (State.initial (Terminal.ofLexemes unclosed 5)) t ∧
      t.symbols = [.label, .leftParen, .tree, .comma, .tree, .rightParen, .finish] ∧
      t.slots = [.own 0, .child 0 .left, .child 0 .right] ∧ InStep t.symbols t.slots) ∧
    ∃ e, readAll (K := Rat) (Terminal.ofLexemes unclosed 5) = .error e ∧
      (∃ now ∈ Terminal.ofLexemes unclosed 5, ∃ due, e = unexpected now due) ∧
      e.message ≠ "incomplete tree description" := by
  obtain ⟨states, errors⟩ := stacks_stay_in_step (K := Rat) unclosed 5
  have reached : Reaches (State.initial (K := Rat) (Terminal.ofLexemes unclosed 5)) _ :=
    .step .start rfl (.branch rfl rfl rfl rfl rfl)
  have words : lex "A(B,C".toList = .ok unclosed := by decide +kernel
  have failed := readAll_of_parse_error words parse_unclosed
  obtain ⟨names, wording⟩ := errors _ failed
  exact ⟨⟨_, reached, rfl, rfl, (states _ reached).1⟩, _, failed, names,
    fun same => wording (by simp [same])⟩

end Steps

end TreeDescription

end TreeDiagram
