import Shorthand.Forest
import Shorthand.Tree.Basic

/-!
# The forest of a tree

Reads the nested view off the links. A branch is followed down for at most as many levels as the tree
has nodes, which is enough unless a node is below itself.
-/

namespace Shorthand.Tree

/-- The branch at a place, cut below the given number of levels. -/
def branchTo (t : Tree) : (levels : Nat) → NodeId → Branch
  | 0, id => .mk (t.node id) []
  | levels + 1, id => .mk (t.node id) ((t.children id).map (t.branchTo levels))

/-- The branch at a place. -/
def branch (t : Tree) (id : NodeId) : Branch :=
  t.branchTo t.size id

/-- The forest below a place. -/
def forestBelow (t : Tree) (id : NodeId) : Forest :=
  (t.branch id).children

/-- The forest of a tree. -/
def forest (t : Tree) : Forest :=
  t.forestBelow t.root

/-- The places of a branch with their depths, parents before children and siblings in order, cut below
the given number of levels. -/
def preorderTo (t : Tree) : (levels depth : Nat) → NodeId → List (NodeId × Nat)
  | 0, depth, id => [(id, depth)]
  | levels + 1, depth, id =>
    (id, depth) :: (t.children id).flatMap (t.preorderTo levels (depth + 1))

/-- The places of a branch with their depths, parents before children and siblings in order. -/
def preorder (t : Tree) (depth : Nat) (id : NodeId) : List (NodeId × Nat) :=
  t.preorderTo t.size depth id

end Shorthand.Tree
