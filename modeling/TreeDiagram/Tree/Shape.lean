/-!
Binary trees by structure: a shape is empty, or an item over a left and a right shape.

Both children of a node are optional and keep their sides. What is said of a stored tree by
following its links is said here by recursion.
-/

namespace TreeDiagram

/-- A binary tree of items. -/
inductive Shape (α : Type) where
  | empty
  | node (item : α) (left right : Shape α)
  deriving DecidableEq, Repr, Inhabited

namespace Shape

variable {α β : Type}

/-- A shape without children. -/
def leaf (item : α) : Shape α := node item empty empty

/-- The number of items. -/
def size : Shape α → Nat
  | empty => 0
  | node _ l r => l.size + r.size + 1

/-- The number of levels. -/
def height : Shape α → Nat
  | empty => 0
  | node _ l r => max l.height r.height + 1

/-- The item at the top. -/
def root? : Shape α → Option α
  | empty => none
  | node a _ _ => some a

/-- The items in root, left, right order. -/
def preOrder : Shape α → List α
  | empty => []
  | node a l r => a :: (l.preOrder ++ r.preOrder)

/-- The items in left, right, root order. -/
def postOrder : Shape α → List α
  | empty => []
  | node a l r => l.postOrder ++ r.postOrder ++ [a]

/-- The items at a distance from the top, from left to right. -/
def level : Nat → Shape α → List α
  | _, empty => []
  | 0, node a _ _ => [a]
  | k + 1, node _ l r => level k l ++ level k r

/-- The same tree with other items. -/
def map (f : α → β) : Shape α → Shape β
  | empty => empty
  | node a l r => node (f a) (l.map f) (r.map f)

end Shape

end TreeDiagram
