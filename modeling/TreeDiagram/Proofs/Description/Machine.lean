import Mathlib.Data.List.Chain
import TreeDiagram.Proofs.Description.Grammar
import TreeDiagram.Proofs.Outcome
/-!
# The two stacks of a reading

What one step of a reading does, and from it what a whole reading does: it consumes exactly the
words that match the symbols that are due, and hangs the tree they describe from the slot at the
top.
-/

namespace TreeDiagram

namespace TreeDescription

variable {K : Type} [Scalar K]

/-- The effect of a step that succeeds. -/
inductive Step (s : State K) (now : Terminal) (behind : List Terminal) : State K → Prop
  | branch {symbols : List Symbol} {slot : Slot} {slots : List Slot} {tree : Tree K}
      (due : s.symbols = .tree :: symbols) (word : now.symbol = .label)
      (follows : behind.head?.map Terminal.symbol = some .leftParen)
      (popped : s.slots = slot :: slots)
      (placed : place (s.tree.add (now.label?.getD "")) slot s.tree.size now = .ok tree) :
      Step s now behind
        { symbols := branchSymbols ++ symbols
          slots :=
            .own s.tree.size :: .child s.tree.size .left :: .child s.tree.size .right :: slots
          tree := tree
          longest := max s.longest (now.label?.getD "").utf8ByteSize
          rest := s.rest }
  | leaf {symbols : List Symbol} {slot : Slot} {slots : List Slot} {tree : Tree K}
      (due : s.symbols = .tree :: symbols) (word : now.symbol = .label)
      (follows : behind.head?.map Terminal.symbol = some .comma ∨
        behind.head?.map Terminal.symbol = some .rightParen)
      (popped : s.slots = slot :: slots)
      (placed : place (s.tree.add (now.label?.getD "")) slot s.tree.size now = .ok tree) :
      Step s now behind
        { symbols := .label :: symbols
          slots := .own s.tree.size :: slots
          tree := tree
          longest := max s.longest (now.label?.getD "").utf8ByteSize
          rest := s.rest }
  | drop {symbols : List Symbol} {slot : Slot} {slots : List Slot}
      (due : s.symbols = .tree :: symbols) (word : now.symbol = .label)
      (follows : behind.head?.map Terminal.symbol = some .finish)
      (popped : s.slots = slot :: slots) :
      Step s now behind { s with symbols := symbols, slots := slots }
  | label {symbols : List Symbol} {slot : Slot} {slots : List Slot}
      (due : s.symbols = .label :: symbols) (word : now.symbol = .label)
      (popped : s.slots = slot :: slots) :
      Step s now behind { s with symbols := symbols, slots := slots, rest := behind }
  | accept {symbol : Symbol} {symbols : List Symbol} (due : s.symbols = symbol :: symbols)
      (notTree : symbol ≠ .tree) (notLabel : symbol ≠ .label) (word : now.symbol = symbol) :
      Step s now behind { s with symbols := symbols, rest := behind }

theorem action_eq_branch {due now : Symbol} {next : Option Symbol} :
    action due now next = .branch ↔ due = .tree ∧ now = .label ∧ next = some .leftParen := by
  unfold action
  split <;> simp_all
  split <;> simp_all

theorem action_eq_leaf {due now : Symbol} {next : Option Symbol} :
    action due now next = .leaf ↔
      due = .tree ∧ now = .label ∧ (next = some .comma ∨ next = some .rightParen) := by
  unfold action
  split <;> simp_all
  split <;> simp_all

theorem action_eq_drop {due now : Symbol} {next : Option Symbol} :
    action due now next = .drop ↔ due = .tree ∧ now = .label ∧ next = some .finish := by
  unfold action
  split <;> simp_all
  split <;> simp_all

theorem action_eq_accept {due now : Symbol} {next : Option Symbol} :
    action due now next = .accept ↔ due ≠ .tree ∧ now = due := by
  unfold action
  split <;> simp_all [eq_comm]

theorem popSlot_eq_ok {slots left : List Slot} {slot : Slot} {now : Terminal} :
    popSlot slots now = .ok (slot, left) ↔ slots = slot :: left := by
  cases slots <;> simp [popSlot]

theorem expand_eq_ok {s next : State K} {now : Terminal} {symbols : List Symbol}
    {slots : Nat → List Slot} :
    expand s now symbols slots = .ok next ↔ ∃ slot left tree, s.slots = slot :: left ∧
      place (s.tree.add (now.label?.getD "")) slot s.tree.size now = .ok tree ∧
      next = { s with
        symbols := symbols
        slots := slots s.tree.size ++ left
        tree := tree
        longest := max s.longest (now.label?.getD "").utf8ByteSize } := by
  unfold expand
  constructor
  · intro done
    obtain ⟨⟨slot, left⟩, popped, done⟩ := bind_eq_ok.mp done
    obtain ⟨tree, placed, done⟩ := bind_eq_ok.mp done
    exact ⟨slot, left, tree, popSlot_eq_ok.mp popped, placed, (Except.ok.inj done).symm⟩
  · rintro ⟨slot, left, tree, popped, placed, rfl⟩
    simp [popSlot_eq_ok.mpr popped, placed, bind, Except.bind]

/-- A step that succeeds has one of five effects. -/
theorem step_eq_ok {s next : State K} {now : Terminal} {behind : List Terminal} :
    step s now behind = .ok next ↔ Step s now behind next := by
  constructor
  · intro taken
    unfold step at taken
    split at taken
    · simp at taken
    · next due symbols top =>
      split at taken
      · next chosen =>
        obtain ⟨rfl, word, follows⟩ := action_eq_branch.mp chosen
        obtain ⟨slot, left, tree, popped, placed, rfl⟩ := expand_eq_ok.mp taken
        exact .branch top word follows popped placed
      · next chosen =>
        obtain ⟨rfl, word, follows⟩ := action_eq_leaf.mp chosen
        obtain ⟨slot, left, tree, popped, placed, rfl⟩ := expand_eq_ok.mp taken
        exact .leaf top word follows popped placed
      · next chosen =>
        obtain ⟨rfl, word, follows⟩ := action_eq_drop.mp chosen
        obtain ⟨⟨slot, left⟩, popped, rfl⟩ := map_eq_ok.mp taken
        exact .drop top word follows (popSlot_eq_ok.mp popped)
      · next chosen =>
        obtain ⟨notTree, word⟩ := action_eq_accept.mp chosen
        split at taken
        · next isLabel =>
          subst isLabel
          obtain ⟨⟨slot, left⟩, popped, rfl⟩ := map_eq_ok.mp taken
          exact .label top word (popSlot_eq_ok.mp popped)
        · next notLabel =>
          cases taken
          exact .accept top notTree notLabel word
      · simp at taken
  · intro effect
    cases effect with
    | branch due word follows popped placed =>
      simp only [step, due, action_eq_branch.mpr ⟨rfl, word, follows⟩]
      exact expand_eq_ok.mpr ⟨_, _, _, popped, placed, rfl⟩
    | leaf due word follows popped placed =>
      simp only [step, due, action_eq_leaf.mpr ⟨rfl, word, follows⟩]
      exact expand_eq_ok.mpr ⟨_, _, _, popped, placed, rfl⟩
    | drop due word follows popped =>
      have chosen := action_eq_drop.mpr ⟨rfl, word, follows⟩
      simp [step, due, chosen, popSlot_eq_ok.mpr popped, Except.map]
    | label due word popped =>
      have chosen {next : Option Symbol} : action .label now.symbol next = .accept :=
        action_eq_accept.mpr ⟨by simp, word⟩
      simp [step, due, chosen, popSlot_eq_ok.mpr popped, Except.map]
    | accept due notTree notLabel word =>
      simp [step, due, action_eq_accept.mpr ⟨notTree, word⟩, notLabel]

theorem run_of_done {s : State K} (noWords : s.rest = []) : run s = .ok s := by
  rw [run]
  split
  · rfl
  · next words => simp [noWords] at words

theorem run_of_error {s : State K} {now : Terminal} {behind : List Terminal} {e : ParseError}
    (words : s.rest = now :: behind) (failed : step s now behind = .error e) :
    run s = .error e := by
  rw [run]
  split
  · next noWords => simp [noWords] at words
  · next words' =>
    cases words.symm.trans words'
    split
    · next failed' => exact failed'.symm.trans failed
    · next taken => simp [failed] at taken

theorem run_of_step {s next : State K} {now : Terminal} {behind : List Terminal}
    (words : s.rest = now :: behind) (taken : Step s now behind next) : run s = run next := by
  rw [run]
  split
  · next noWords => simp [noWords] at words
  · next words' =>
    cases words.symm.trans words'
    split
    · next failed => simp [step_eq_ok.mpr taken] at failed
    · next taken' =>
      rw [step_eq_ok.mpr taken] at taken'
      cases taken'
      rfl

/-- Behind a tree that is due comes neither another one nor a label. -/
def Ordered : List Symbol → Prop :=
  List.IsChain fun above below => above = .tree → below ≠ .tree ∧ below ≠ .label

theorem Step.ordered {s next : State K} {now : Terminal} {behind : List Terminal}
    (taken : Step s now behind next) (ordered : Ordered s.symbols) : Ordered next.symbols := by
  have below {top : Symbol} {symbols : List Symbol} (due : s.symbols = top :: symbols) :
      Ordered symbols := by
    rw [due] at ordered
    exact ordered.tail
  cases taken with
  | @branch symbols _ _ _ due =>
    have rest := below due
    cases symbols with
    | nil => simp [Ordered, branchSymbols]
    | cons => simpa [Ordered, branchSymbols] using rest
  | @leaf symbols _ _ _ due =>
    have rest := below due
    cases symbols with
    | nil => simp [Ordered]
    | cons => simpa [Ordered] using rest
  | drop due => exact below due
  | label due => exact below due
  | accept due => exact below due

/-- What matches after a step matches before it. A tree that was given up is no exception: the word
that stood there is a label, and no label is due behind a tree. -/
theorem Step.matches {s next : State K} {now : Terminal} {behind : List Terminal}
    (taken : Step s now behind next) (words : s.rest = now :: behind) (ordered : Ordered s.symbols)
    (later : Matches next.symbols next.rest) : Matches s.symbols s.rest := by
  cases taken with
  | branch due =>
    rw [due]
    exact Matches.of_branchSymbols later
  | leaf due =>
    obtain ⟨w, rest, split, word, later⟩ := Matches.of_word later (by simp)
    obtain ⟨label, word⟩ := label_of_symbol word
    rw [due, show s.rest = [w] ++ rest from split]
    exact .tree (.leaf word) later
  | @drop symbols _ _ due word =>
    rw [due] at ordered
    simp only [words] at later
    cases symbols with
    | nil => cases later
    | cons below symbols =>
      have behindTree := (List.isChain_cons_cons.mp ordered).1 rfl
      obtain ⟨w, rest, split, same, -⟩ := Matches.of_word later behindTree.1
      cases split
      exact absurd (same.symm.trans word) behindTree.2
  | label due word =>
    rw [due, words]
    exact .word (by simp) word later
  | accept due notTree _ word =>
    rw [due, words]
    exact .word notTree word later

/-- A reading that comes to an end with nothing due has read words that match its symbols. -/
theorem matches_of_run {s final : State K} (done : run s = .ok final) (nothing : final.symbols = [])
    (ordered : Ordered s.symbols) : Matches s.symbols s.rest := by
  -- backwards from the end: what matches after a step matches before it
  induction s using run.induct with
  | case1 s noWords =>
    rw [run_of_done noWords] at done
    cases done
    rw [nothing, noWords]
    exact .done
  | case2 s now behind words e failed =>
    rw [run_of_error words failed] at done
    cases done
  | case3 s now behind words next taken _ ih =>
    have step := step_eq_ok.mp taken
    rw [run_of_step words step] at done
    exact step.matches words ordered (ih done (step.ordered ordered))

end TreeDescription

end TreeDiagram
