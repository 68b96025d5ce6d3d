import Shorthand.Tree.Basic

/-!
# Coherent trees

The five links of the nodes say the same thing several times over. A tree is **coherent** when they
agree: every node has one sequence of children, which its own links and theirs spell out, and every
node with a parent is in the sequence of that parent. It is **acyclic** when no node is above itself.
-/

namespace Shorthand.Tree

/-- The links spell out `ids` as the children of `parent`: the first and the last are known to the
parent, each child knows its parent and its neighbours, and nothing else has that parent. -/
structure Children (t : Tree) (parent : NodeId) (ids : List NodeId) : Prop where
  nodup : ids.Nodup
  first : t.firstChild parent = ids.head?
  last : t.lastChild parent = ids.getLast?
  mem_iff : ∀ id, id.index < t.size → (id ∈ ids ↔ t.parent id = some parent)
  inside : ∀ id ∈ ids, id.index < t.size
  next : ∀ (i : Nat) (id : NodeId), ids[i]? = some id → t.next id = ids[i + 1]?
  previous : ∀ (i : Nat) (id : NodeId), ids[i + 1]? = some id → t.previous id = ids[i]?
  headPrevious : ∀ id, ids.head? = some id → t.previous id = none

/-- Do all links agree? -/
structure Coherent (t : Tree) : Prop where
  root : t.root.index < t.size
  children : ∀ parent, parent.index < t.size → ∃ ids, t.Children parent ids
  parent : ∀ id parent, t.parent id = some parent → parent.index < t.size
  detached : ∀ id, t.parent id = none → t.previous id = none ∧ t.next id = none

/-- Is no node above itself? Some rank goes up strictly from every parent to its children. -/
def Acyclic (t : Tree) : Prop :=
  ∃ rank : NodeId → Nat, ∀ id parent, t.parent id = some parent → rank parent < rank id

end Shorthand.Tree
