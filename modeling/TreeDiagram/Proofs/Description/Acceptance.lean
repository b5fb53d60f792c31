import TreeDiagram.Proofs.Description.Growth
import TreeDiagram.Proofs.Description.Writing
/-!
# Descriptions that are accepted

A text that splits into words is accepted exactly if its words are those of a derivation, and then
it describes the tree of that derivation. The stacks accept every derivation but a label alone; this
one they give up, and it is accepted on its own.
-/

namespace TreeDiagram

namespace TreeDescription

variable {K : Type} [Scalar K]

theorem map_token_ofLexemes (words : List Lexeme) (length : Nat) :
    (Terminal.ofLexemes words length).map Terminal.token =
      (words.map Lexeme.token).map some ++ [none] := by
  simp [Terminal.ofLexemes, Function.comp_def]

theorem exists_derivation_of_matches {words : List Lexeme} {length : Nat}
    (h : Matches [.tree, .finish] (Terminal.ofLexemes words length)) :
    ∃ d : Derivation, words.map Lexeme.token = d.words := by
  obtain ⟨d, ts, rest, split, derives, behind⟩ := Matches.of_tree h
  obtain ⟨last, nothing, rfl, -, ended⟩ := Matches.of_word behind (by simp)
  cases ended
  have tokens := map_token_ofLexemes words length
  rw [split, List.map_append, derives_iff.mp derives] at tokens
  have same := (List.append_inj' tokens rfl).1
  exact ⟨d, (List.map_injective_iff.mpr (Option.some_injective _) same).symm⟩

theorem exists_derivation_of_readAll {words : List Lexeme} {length : Nat}
    {desc : TreeDescription K} (done : readAll (Terminal.ofLexemes words length) = .ok desc) :
    ∃ d : Derivation, words.map Lexeme.token = d.words := by
  obtain ⟨s, final, done⟩ := bind_eq_ok.mp done
  split at done
  · next complete =>
    simp only [Bool.and_eq_true, List.isEmpty_iff] at complete
    have ordered : Ordered [.tree, .finish] := by simp [Ordered]
    exact exists_derivation_of_matches (matches_of_run final complete.1 ordered)
  · cases done

theorem derives_of_words {d : Derivation} {words : List Lexeme}
    (same : words.map Lexeme.token = d.words) :
    Derives d (words.map fun w => ⟨some w.token, w.span⟩) := by
  rw [derives_iff, ← same]
  simp [Function.comp_def]

/-- A label with two trees is read to the end that stands behind it. -/
theorem run_branch {label : String} {l r : Derivation} {ws : List Terminal}
    (derives : Derives (.branch label l r) ws) {finish : Terminal} (atEnd : finish.token = none) :
    run (State.initial (K := K) (ws ++ [finish])) =
      .ok ⟨[], [], (Derivation.branch label l r).description.tree,
        (Derivation.branch label l r).longest, []⟩ := by
  let d := Derivation.branch label l r
  have noLeaf : ∀ text, Derivation.branch label l r = .leaf text →
      [finish].head?.map Terminal.symbol = some .comma ∨
        [finish].head?.map Terminal.symbol = some .rightParen := by
    intro text isLeaf
    cases isLeaf
  have isEnd : finish.symbol = .finish := by rw [Terminal.symbol, atEnd]
  have grown : d.hungFrom ({} : Tree K) .root = d.description.tree := by
    simp [Derivation.hungFrom, Derivation.description, Slot.fill, Slot.parent?, Tree.size]
  calc
    run (State.initial (K := K) (ws ++ [finish]))
    _ = run ⟨[.finish], [], d.hungFrom {} .root, max 0 d.longest, [finish]⟩ :=
        run_derives derives trivial noLeaf
    _ = run ⟨[], [], d.hungFrom {} .root, max 0 d.longest, []⟩ :=
        run_of_step rfl (.accept rfl (by simp) (by simp) isEnd)
    _ = .ok ⟨[], [], d.description.tree, d.longest, []⟩ := by
        rw [run_of_done rfl, grown, Nat.zero_max]

/-- The stacks accept a label with two trees. -/
theorem readAll_branch {words : List Lexeme} {length : Nat} {label : String} {l r : Derivation}
    (same : words.map Lexeme.token = (Derivation.branch label l r).words) :
    readAll (Terminal.ofLexemes words length) =
      .ok ((Derivation.branch label l r).description (K := K)) := by
  let finish : Terminal := ⟨none, ⟨length, length⟩⟩
  have atEnd : finish.token = none := rfl
  have final := run_branch (K := K) (derives_of_words same) atEnd
  rw [readAll, Terminal.ofLexemes, final]
  rfl

/-- The stacks give up a label that is all there is, and reject it where the end is due. -/
theorem readAll_leaf {words : List Lexeme} {label : String}
    (same : words.map Lexeme.token = (Derivation.leaf label).words) (length : Nat) :
    ∃ e, readAll (K := K) (Terminal.ofLexemes words length) = .error e := by
  obtain ⟨w, rest, rfl, word, nothing⟩ := List.map_eq_cons_iff.mp same
  rw [List.map_eq_nil_iff.mp nothing]
  let first : Terminal := ⟨some w.token, w.span⟩
  let finish : Terminal := ⟨none, ⟨length, length⟩⟩
  have isLabel : first.symbol = (Token.label label).symbol := symbol_of_token (congrArg some word)
  have failed : run (State.initial (K := K) [first, finish]) =
      .error (unexpected first .finish) := by
    calc
      run (State.initial (K := K) [first, finish])
      _ = run ⟨[.finish], [], {}, 0, [first, finish]⟩ :=
          run_of_step rfl (.drop rfl isLabel rfl rfl)
      _ = .error (unexpected first .finish) :=
          run_of_error rfl (by simp [step, action, isLabel, Token.symbol])
  exact ⟨unexpected first .finish, by
    simp only [readAll, Terminal.ofLexemes, List.map_cons, List.map_nil, List.singleton_append]
    rw [failed]
    rfl⟩

theorem loneLabel_eq_some {words : List Lexeme} {length : Nat} {label : String} :
    loneLabel? (Terminal.ofLexemes words length) = some label ↔
      words.map Lexeme.token = (Derivation.leaf label).words := by
  match words with
  | [] => simp [Terminal.ofLexemes, loneLabel?, Derivation.words]
  | [w] =>
    cases word : w.token <;>
      simp [Terminal.ofLexemes, loneLabel?, Derivation.words, Terminal.label?, word]
  | w :: w' :: rest =>
    cases rest <;> simp [Terminal.ofLexemes, loneLabel?, Derivation.words]

theorem ofLabel_eq (label : String) :
    ofLabel (K := K) label = (Derivation.leaf label).description := by
  simp [ofLabel, Tree.single, Tree.add, Tree.setRoot, Tree.modify, Derivation.description,
    Derivation.rows, Derivation.longest, Node.new, Array.modify, Array.modifyM]

theorem parse_of_derivation {cs : List Char} {words : List Lexeme} (split : lex cs = .ok words)
    {d : Derivation} (same : words.map Lexeme.token = d.words) :
    parse cs = .ok (d.description (K := K)) := by
  simp only [parse, split, bind, Except.bind]
  cases d with
  | leaf label =>
    obtain ⟨e, failed⟩ := readAll_leaf (K := K) same (byteLength cs)
    simp only [failed, loneLabel_eq_some.mpr same, ofLabel_eq]
  | branch label l r => simp only [readAll_branch same]

/-- A text is accepted as a description exactly if its words are those of a derivation. -/
theorem parse_eq_ok {cs : List Char} {words : List Lexeme} (split : lex cs = .ok words)
    {desc : TreeDescription K} :
    parse cs = .ok desc ↔ ∃ d : Derivation, words.map Lexeme.token = d.words ∧
      desc = d.description := by
  constructor
  · intro parsed
    have derivation : ∃ d : Derivation, words.map Lexeme.token = d.words := by
      simp only [parse, split, bind, Except.bind] at parsed
      split at parsed
      · next read => exact exists_derivation_of_readAll read
      · split at parsed
        · next lone => exact ⟨.leaf _, loneLabel_eq_some.mp lone⟩
        · cases parsed
    obtain ⟨d, same⟩ := derivation
    refine ⟨d, same, ?_⟩
    rw [parse_of_derivation split same] at parsed
    exact (Except.ok.inj parsed).symm
  · rintro ⟨d, same, rfl⟩
    exact parse_of_derivation split same

/-- What is read from a text is made of a derivation. -/
theorem exists_derivation_of_parse {cs : List Char} {desc : TreeDescription K}
    (parsed : parse cs = .ok desc) : ∃ d : Derivation, desc = d.description := by
  obtain ⟨words, split, -⟩ := bind_eq_ok.mp parsed
  obtain ⟨d, -, same⟩ := (parse_eq_ok split).mp parsed
  exact ⟨d, same⟩

theorem parse_of_spaced {d : Derivation} (writable : ∀ label ∈ d.labels, Writable label)
    {cs : List Char} (spaced : Spaced d.words cs) : parse cs = .ok (d.description (K := K)) := by
  obtain ⟨words, split, same⟩ := lexFrom_spaced spaced
    (fun label member => writable label (Derivation.label_mem_words.mp member)) d.labelsApart_words
    0 []
  exact parse_of_derivation split (by simpa using same)

/-- Among the texts that split into words exactly those are accepted whose words are those of a
derivation, and what they describe is the tree of this derivation. Every derivation with labels that
can be written is described by each of its written forms. -/
theorem parse_accepts_derivations :
    (∀ (cs : List Char) (words : List Lexeme), lex cs = .ok words →
      ((∃ desc, parse (K := K) cs = .ok desc) ↔
        ∃ d : Derivation, words.map Lexeme.token = d.words) ∧
      ∀ (d : Derivation) (desc : TreeDescription K), words.map Lexeme.token = d.words →
        parse cs = .ok desc → Describes desc d) ∧
    ∀ d : Derivation, (∀ label ∈ d.labels, Writable label) → ∀ cs, Spaced d.words cs →
      ∃ desc : TreeDescription K, parse cs = .ok desc ∧ Describes desc d := by
  refine ⟨fun cs words split => ⟨⟨?_, ?_⟩, ?_⟩, ?_⟩
  · rintro ⟨desc, parsed⟩
    obtain ⟨d, same, -⟩ := (parse_eq_ok split).mp parsed
    exact ⟨d, same⟩
  · rintro ⟨d, same⟩
    exact ⟨d.description, parse_of_derivation split same⟩
  · intro d desc same parsed
    rw [parse_of_derivation split same] at parsed
    cases parsed
    exact describes_description d
  · intro d writable cs spaced
    exact ⟨d.description, parse_of_spaced writable spaced, describes_description d⟩

/-- A node with two children, for instances of what holds of every derivation. -/
def Derivation.pair : Derivation := .branch "R" (.leaf "A_1") (.leaf "B")

theorem parse_accepts_pair :
    (∀ label ∈ Derivation.pair.labels, Writable label) ∧
      Spaced Derivation.pair.words " R(A_1 ,B)\n".toList ∧
      (∃ words, lex " R(A_1 ,B)\n".toList = .ok words ∧
        words.map Lexeme.token = Derivation.pair.words) ∧
      ∃ desc : TreeDescription Rat, parse " R(A_1 ,B)\n".toList = .ok desc ∧
        Describes desc Derivation.pair := by
  have writable : ∀ label ∈ Derivation.pair.labels, Writable label := by
    intro label member
    simp only [Derivation.pair, Derivation.labels, List.mem_cons, List.mem_append,
      List.not_mem_nil, or_false] at member
    rcases member with rfl | rfl | rfl <;>
      exact ⟨by decide, List.all_eq_true.mp (by decide), by decide⟩
  have parts : " R(A_1 ,B)\n".toList = [' '] ++ ((Token.label "R").text ++
      ([] ++ (Token.leftParen.text ++ ([] ++ ((Token.label "A_1").text ++
        ([' '] ++ (Token.comma.text ++ ([] ++ ((Token.label "B").text ++
          ([] ++ (Token.rightParen.text ++ ['\n']))))))))))) := by decide
  have spaced : Spaced Derivation.pair.words " R(A_1 ,B)\n".toList := by
    rw [parts]
    have one : ∀ c ∈ [' '], isBlank c := List.all_eq_true.mp rfl
    have last : ∀ c ∈ ['\n'], isBlank c := List.all_eq_true.mp rfl
    have none : ∀ c ∈ ([] : List Char), isBlank c := List.all_eq_true.mp rfl
    exact .word one (.word none (.word none (.word one (.word none (.word none (.finish last))))))
  have split := lexFrom_spaced spaced
    (fun label member => writable label (Derivation.label_mem_words.mp member))
    Derivation.pair.labelsApart_words 0 []
  exact ⟨writable, spaced, split,
    parse_accepts_derivations.2 Derivation.pair writable _ spaced⟩

end TreeDescription

end TreeDiagram
