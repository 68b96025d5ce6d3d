import Shorthand.Node

/-!
# Trees

The nodes of an abbreviation live in one array and refer to each other by index. The ordered
children of a node are its chain `firstChild`, `next`, `next`, …, so the sequence and the sibling
links are one structure. Places are handed out in ascending order and never taken back: a node that
is detached stays where it is and is merely out of reach of the root.

Design points:

* an id that no node has reads as an empty node without links, and changing it changes nothing, so
  every operation is total;
* a chain is followed for at most as many steps as there are nodes. A chain that meets no node twice
  is never cut short by that;
* links may be given from outside and then need not form a tree. What goes through nodes that are
  reached in more than one way takes more steps than there are nodes (`grantedSteps`).
* places are numbers of any size, where the program keeps an id in 32 bits. The two agree as long as
  a tree has at most 2^32 nodes, and trees are taken to stay below that: the place that the next new
  node gets (`nextId`) is never cut down to 32 bits.
-/

namespace Shorthand

/-- The place of a node. In the program it has 32 bits. -/
structure NodeId where
  index : Nat
  deriving DecidableEq, Repr

/-- What a node is linked to. -/
structure Links where
  parent : Option NodeId := none
  firstChild : Option NodeId := none
  lastChild : Option NodeId := none
  previous : Option NodeId := none
  next : Option NodeId := none
  deriving DecidableEq, Repr

/-- A node together with its links. -/
structure Slot where
  node : Node := {}
  links : Links := {}
  deriving DecidableEq, Repr

/-- A tree: its nodes, and the one that holds the top level. -/
structure Tree where
  slots : Array Slot
  root : NodeId
  deriving DecidableEq, Repr

namespace Tree

/-- The tree of a lone root. -/
def empty : Tree :=
  { slots := #[{}], root := ⟨0⟩ }

/-- The number of nodes, detached ones included. -/
def size (t : Tree) : Nat :=
  t.slots.size

/-- Is there a node at the place? -/
def contains (t : Tree) (id : NodeId) : Bool :=
  id.index < t.size

/-- What is at the place. -/
def slot (t : Tree) (id : NodeId) : Slot :=
  t.slots[id.index]?.getD {}

/-- The data of the node at the place. -/
def node (t : Tree) (id : NodeId) : Node :=
  (t.slot id).node

/-- The links of the node at the place. -/
def links (t : Tree) (id : NodeId) : Links :=
  (t.slot id).links

/-- The parent of a node; detached nodes and the root have none. -/
def parent (t : Tree) (id : NodeId) : Option NodeId :=
  (t.links id).parent

/-- The first child of a node. -/
def firstChild (t : Tree) (id : NodeId) : Option NodeId :=
  (t.links id).firstChild

/-- The last child of a node. -/
def lastChild (t : Tree) (id : NodeId) : Option NodeId :=
  (t.links id).lastChild

/-- The sibling in front of a node. -/
def previous (t : Tree) (id : NodeId) : Option NodeId :=
  (t.links id).previous

/-- The sibling behind a node. -/
def next (t : Tree) (id : NodeId) : Option NodeId :=
  (t.links id).next

/-! ### Changing one node -/

/-- Changes the slot at a place. -/
def modify (t : Tree) (id : NodeId) (f : Slot → Slot) : Tree :=
  { t with slots := t.slots.modify id.index f }

/-- Changes the data of the node at a place. -/
def modifyNode (t : Tree) (id : NodeId) (f : Node → Node) : Tree :=
  t.modify id fun s => { s with node := f s.node }

/-- Changes the links of the node at a place. -/
def modifyLinks (t : Tree) (id : NodeId) (f : Links → Links) : Tree :=
  t.modify id fun s => { s with links := f s.links }

/-- The place that the next new node gets. -/
def nextId (t : Tree) : NodeId :=
  ⟨t.size⟩

/-- Puts a node at the next place, detached. -/
def push (t : Tree) (n : Node) : Tree :=
  { t with slots := t.slots.push { node := n } }

@[simp] theorem size_modify (t : Tree) (id : NodeId) (f : Slot → Slot) :
    (t.modify id f).size = t.size := by
  simp [modify, size]

@[simp] theorem root_modify (t : Tree) (id : NodeId) (f : Slot → Slot) :
    (t.modify id f).root = t.root := rfl

@[simp] theorem size_push (t : Tree) (n : Node) : (t.push n).size = t.size + 1 := by
  simp [push, size]

@[simp] theorem root_push (t : Tree) (n : Node) : (t.push n).root = t.root := rfl

/-- The changed place holds the changed slot. -/
theorem slot_modify_self {t : Tree} {id : NodeId} (f : Slot → Slot) (h : id.index < t.size) :
    (t.modify id f).slot id = f (t.slot id) := by
  have h' : id.index < t.slots.size := h
  simp [modify, slot, Array.getElem_modify, h']

/-- Every other place holds what it held. -/
theorem slot_modify_of_ne {t : Tree} {id other : NodeId} (f : Slot → Slot) (h : other ≠ id) :
    (t.modify id f).slot other = t.slot other := by
  have h' : id.index ≠ other.index := fun heq => h (by cases id; cases other; simp_all)
  simp [modify, slot, Array.getElem?_modify, h']

/-- A new node is at the place announced for it, without links. -/
theorem slot_push_self (t : Tree) (n : Node) : (t.push n).slot t.nextId = { node := n } := by
  simp [push, slot, nextId, size]

/-- A new node leaves every other place as it was. -/
theorem slot_push_of_ne {t : Tree} {id : NodeId} (n : Node) (h : id ≠ t.nextId) :
    (t.push n).slot id = t.slot id := by
  have h' : id.index ≠ t.slots.size := fun heq => h (by cases id; simp_all [nextId, size])
  simp [push, slot, Array.getElem?_push, h']

/-! ### Children -/

/-- The nodes along a chain of siblings, at most `steps` of them, behind those in `found` (last
first). -/
def chain (t : Tree) (found : List NodeId) : (steps : Nat) → Option NodeId → List NodeId
  | 0, _ => found.reverse
  | _ + 1, none => found.reverse
  | steps + 1, some id => t.chain (id :: found) steps (t.next id)

/-- The children of a node, in order. -/
def children (t : Tree) (id : NodeId) : List NodeId :=
  t.chain [] t.size (t.firstChild id)

/-- The steps granted to a run over the links that takes at most `needed` steps in a tree where every
node is reached in one way. Where nodes are shared a run may take longer, so it is granted more than
any run that ends could take. -/
def grantedSteps (needed : Nat) : Nat :=
  max needed 0x3fffffffffffffff

theorem le_grantedSteps (needed : Nat) : needed ≤ grantedSteps needed :=
  Nat.le_max_left ..

/-- Does a node have children? -/
def hasChildren (t : Tree) (id : NodeId) : Bool :=
  (t.firstChild id).isSome

end Tree

end Shorthand
