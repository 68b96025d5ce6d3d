import Shorthand.Node

/-!
# Forests

The nested view of a tree: a branch is a node with the branches below it, a forest a sequence of
branches. Where a tree is held as linked places, what it *means* is said on its forest: the order of
its nodes (`preorder`), its abbreviation (`Forest.render`) and its expansion (`Forest.expand`).
-/

namespace Shorthand

/-- A node with what is below it. -/
inductive Branch where
  | mk (node : Node) (children : List Branch)
  deriving Repr, BEq

/-- A sequence of branches. -/
abbrev Forest := List Branch

namespace Branch

/-- The node at the head of a branch. -/
def node : Branch → Node
  | .mk node _ => node

/-- The branches below the head of a branch. -/
def children : Branch → Forest
  | .mk _ children => children

end Branch

mutual

/-- The nodes of a branch with their depths, parents before children and siblings in order. -/
def Branch.preorder (depth : Nat) : Branch → List (Node × Nat)
  | .mk node children => (node, depth) :: Forest.preorder (depth + 1) children

/-- The nodes of a forest with their depths, parents before children and siblings in order. -/
def Forest.preorder (depth : Nat) : List Branch → List (Node × Nat)
  | [] => []
  | b :: bs => b.preorder depth ++ Forest.preorder depth bs

end

mutual

/-- The number of nodes of a branch. -/
def Branch.size : Branch → Nat
  | .mk _ children => Forest.size children + 1

/-- The number of nodes of a forest. -/
def Forest.size : List Branch → Nat
  | [] => 0
  | b :: bs => b.size + Forest.size bs

end

end Shorthand
