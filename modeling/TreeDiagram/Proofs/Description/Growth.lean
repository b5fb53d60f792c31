import TreeDiagram.Proofs.Description.Machine
import TreeDiagram.Proofs.Description.Stored
/-!
# The tree that a reading builds

A reading hangs the words of a derivation from the slot at the top. The nodes of the derivation come
behind those that are there, in pre-order, and the only link that changes among these is that of the
slot.
-/

namespace TreeDiagram

private theorem modify_append_cons {α : Type} (xs : Array α) (a : α) (ys : List α) (f : α → α)
    {i : Nat} (here : i = xs.size) :
    (xs ++ (a :: ys).toArray).modify i f = xs ++ (f a :: ys).toArray := by
  subst here
  apply Array.ext_getElem?
  intro j
  rw [Array.getElem?_modify, Array.getElem?_append, Array.getElem?_append]
  by_cases same : xs.size = j
  · simp [← same]
  · by_cases inside : j < xs.size
    · simp [same, inside]
    · obtain ⟨k, rfl⟩ : ∃ k, j = xs.size + (k + 1) := ⟨j - xs.size - 1, by omega⟩
      simp

private theorem modify_append_of_lt {α : Type} (xs ys : Array α) (f : α → α) {i : Nat}
    (inside : i < xs.size) : (xs ++ ys).modify i f = xs.modify i f ++ ys := by
  apply Array.ext_getElem?
  intro j
  rw [Array.getElem?_modify, Array.getElem?_append, Array.getElem?_append, Array.size_modify,
    Array.getElem?_modify]
  by_cases same : i = j
  · simp [← same, inside]
  · simp [same]

namespace TreeDescription

variable {K : Type}

namespace Slot

/-- The parent of a node that is put into a slot. -/
def parent? : Slot → Option Nat
  | .child parent _ => some parent
  | _ => none

/-- A slot that takes a node in a tree of a size. -/
def Takes (size : Nat) : Slot → Prop
  | .root => True
  | .child parent _ => parent < size
  | .own _ => False

/-- The tree with the next new node in a slot, though that node is not there yet. -/
def fill (t : Tree K) : Slot → Tree K
  | .root => { t with root := some t.size }
  | .child parent .left => t.modify parent fun n => { n with left := some t.size }
  | .child parent .right => t.modify parent fun n => { n with right := some t.size }
  | .own _ => t

@[simp] theorem parent?_child (parent : Nat) (side : Side) :
    (child parent side).parent? = some parent := rfl

theorem fill_left (t : Tree K) (parent : Nat) : (child parent .left).fill t =
    { t with nodes := t.nodes.modify parent fun n => { n with left := some t.size } } := rfl

theorem fill_right (t : Tree K) (parent : Nat) : (child parent .right).fill t =
    { t with nodes := t.nodes.modify parent fun n => { n with right := some t.size } } := rfl

@[simp] theorem size_fill (slot : Slot) (t : Tree K) : (slot.fill t).size = t.size := by
  unfold fill
  split <;> simp [Tree.size, Tree.modify]

end Slot

variable [Scalar K]

/-- The tree with the nodes of a derivation behind its own, hung from a slot. -/
def Derivation.hungFrom (t : Tree K) (slot : Slot) (d : Derivation) : Tree K :=
  { slot.fill t with nodes := (slot.fill t).nodes ++ (d.rows t.size slot.parent?).toArray }

@[simp] theorem size_hungFrom (t : Tree K) (slot : Slot) (d : Derivation) :
    (d.hungFrom t slot).size = t.size + d.size := by
  have size : (slot.fill t).nodes.size = t.size := slot.size_fill t
  simp [Derivation.hungFrom, Tree.size] at *
  omega

theorem place_eq_ok {t : Tree K} {slot : Slot} (takes : slot.Takes t.size) (label : String)
    (now : Terminal) :
    place (t.add label) slot t.size now = .ok ((Derivation.leaf label).hungFrom t slot) := by
  have added : (t.add label).nodes = t.nodes ++ #[Node.new label] := by simp [Tree.add]
  have last (nodes : Array (Node K)) (same : nodes.size = t.nodes.size) : t.size = nodes.size :=
    same.symm
  cases slot with
  | root =>
    simp only [place, Tree.setRoot, Tree.modify, added]
    rw [modify_append_cons _ _ _ _ (last t.nodes rfl)]
    rfl
  | child parent side =>
    cases side with
    | left =>
      simp only [place, Tree.attach, Tree.modify, added, modify_append_of_lt _ _ _ takes]
      rw [modify_append_cons _ _ _ _ (last _ Array.size_modify)]
      rfl
    | right =>
      simp only [place, Tree.attach, Tree.modify, added, modify_append_of_lt _ _ _ takes]
      rw [modify_append_cons _ _ _ _ (last _ Array.size_modify)]
      rfl
  | own node => exact takes.elim

/-- A label with two trees is hung by hanging the label, the left tree from it, and then the right
tree from it. -/
theorem hungFrom_branch (t : Tree K) (slot : Slot) (label : String) (l r : Derivation) :
    r.hungFrom (l.hungFrom ((Derivation.leaf label).hungFrom t slot) (.child t.size .left))
      (.child t.size .right) = (Derivation.branch label l r).hungFrom t slot := by
  have last : t.size = (slot.fill t).nodes.size := (slot.size_fill t).symm
  have top : ((Derivation.leaf label).hungFrom t slot).size = t.size + 1 := size_hungFrom t slot _
  -- only the node of the label itself changes, and it stands right behind the old ones
  have left : l.hungFrom ((Derivation.leaf label).hungFrom t slot) (.child t.size .left) =
      { slot.fill t with
        nodes := (slot.fill t).nodes ++
          ({ Node.new label with left := some (t.size + 1), parent := slot.parent? } ::
            l.rows (t.size + 1) (some t.size)).toArray } := by
    rw [Derivation.hungFrom, Slot.fill_left, top, Slot.parent?_child]
    rw [Derivation.hungFrom, Derivation.rows, modify_append_cons _ _ _ _ last]
    simp
  have size := size_hungFrom ((Derivation.leaf label).hungFrom t slot) (.child t.size .left) l
  rw [top] at size
  rw [Derivation.hungFrom, Slot.fill_right, size, Slot.parent?_child, left,
    modify_append_cons _ _ _ _ last]
  simp [Derivation.hungFrom, Derivation.rows]

/-- Reading the words of a derivation hangs its tree from the slot at the top. A label alone has to
be followed by a comma or a parenthesis. -/
theorem run_derives {d : Derivation} {ws : List Terminal} (derives : Derives d ws)
    {symbols : List Symbol} {slot : Slot} {slots : List Slot} {tree : Tree K} {longest : Nat}
    {behind : List Terminal} (takes : slot.Takes tree.size)
    (follows : ∀ label, d = .leaf label → behind.head?.map Terminal.symbol = some .comma ∨
      behind.head?.map Terminal.symbol = some .rightParen) :
    run ⟨.tree :: symbols, slot :: slots, tree, longest, ws ++ behind⟩ =
      run ⟨symbols, slots, d.hungFrom tree slot, max longest d.longest, behind⟩ := by
  induction derives generalizing symbols slot slots tree longest behind with
  | @leaf label w word =>
    have isLabel : w.symbol = .label := symbol_of_token word
    have text : w.label?.getD "" = label := by simp [Terminal.label?, word]
    rw [run_of_step rfl (.leaf rfl isLabel (follows label rfl) rfl (place_eq_ok takes _ w))]
    rw [run_of_step rfl (.label rfl isLabel rfl)]
    rw [text]
    rfl
  | @branch label l r w opening comma closing ls rs word opens left divides right closes ihl ihr =>
    have isLabel : w.symbol = .label := symbol_of_token word
    have text : w.label?.getD "" = label := by simp [Terminal.label?, word]
    have isOpening : opening.symbol = .leftParen := symbol_of_token opens
    have isComma : comma.symbol = .comma := symbol_of_token divides
    have isClosing : closing.symbol = .rightParen := symbol_of_token closes
    let top := (Derivation.leaf label).hungFrom tree slot
    let withLeft := l.hungFrom top (.child tree.size .left)
    have takesLeft : Slot.Takes top.size (.child tree.size .left) := by
      simp [Slot.Takes, top, Derivation.size]
    have takesRight : Slot.Takes withLeft.size (.child tree.size .right) := by
      rw [size_hungFrom]
      exact Nat.lt_of_lt_of_le takesLeft (Nat.le_add_right _ _)
    let afterLeft := comma :: (rs ++ closing :: behind)
    let here := max longest label.utf8ByteSize
    have split : w :: opening :: (ls ++ comma :: (rs ++ [closing])) ++ behind =
        w :: opening :: (ls ++ afterLeft) := by simp [afterLeft]
    have followsTop : (opening :: (ls ++ afterLeft)).head?.map Terminal.symbol =
        some .leftParen := by simp [isOpening]
    have followsLeft : afterLeft.head?.map Terminal.symbol = some .comma := by
      simp [afterLeft, isComma]
    have followsRight : (closing :: behind).head?.map Terminal.symbol = some .rightParen := by
      simp [isClosing]
    rw [split]
    calc
      run ⟨.tree :: symbols, slot :: slots, tree, longest, w :: opening :: (ls ++ afterLeft)⟩
      _ = run ⟨branchSymbols ++ symbols,
            .own tree.size :: .child tree.size .left :: .child tree.size .right :: slots, top, here,
            w :: opening :: (ls ++ afterLeft)⟩ := by
          rw [run_of_step rfl (.branch rfl isLabel followsTop rfl (place_eq_ok takes _ w)), text]
      _ = run ⟨.leftParen :: .tree :: .comma :: .tree :: .rightParen :: symbols,
            .child tree.size .left :: .child tree.size .right :: slots, top, here,
            opening :: (ls ++ afterLeft)⟩ := run_of_step rfl (.label rfl isLabel rfl)
      _ = run ⟨.tree :: .comma :: .tree :: .rightParen :: symbols,
            .child tree.size .left :: .child tree.size .right :: slots, top, here,
            ls ++ afterLeft⟩ := run_of_step rfl (.accept rfl (by simp) (by simp) isOpening)
      _ = run ⟨.comma :: .tree :: .rightParen :: symbols, .child tree.size .right :: slots,
            withLeft, max here l.longest, afterLeft⟩ := ihl takesLeft fun _ _ => .inl followsLeft
      _ = run ⟨.tree :: .rightParen :: symbols, .child tree.size .right :: slots, withLeft,
            max here l.longest, rs ++ closing :: behind⟩ :=
          run_of_step rfl (.accept rfl (by simp) (by simp) isComma)
      _ = run ⟨.rightParen :: symbols, slots, r.hungFrom withLeft (.child tree.size .right),
            max (max here l.longest) r.longest, closing :: behind⟩ :=
          ihr takesRight fun _ _ => .inr followsRight
      _ = run ⟨symbols, slots, r.hungFrom withLeft (.child tree.size .right),
            max (max here l.longest) r.longest, behind⟩ :=
          run_of_step rfl (.accept rfl (by simp) (by simp) isClosing)
      _ = run ⟨symbols, slots, (Derivation.branch label l r).hungFrom tree slot,
            max longest (Derivation.branch label l r).longest, behind⟩ := by
          rw [hungFrom_branch, Derivation.longest, ← Nat.max_assoc, ← Nat.max_assoc]

end TreeDescription

end TreeDiagram
