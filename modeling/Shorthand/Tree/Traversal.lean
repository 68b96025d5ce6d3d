import Shorthand.Tree.Basic

/-!
# Going through a tree

* `descendants` lists what is below a node in pre-order, each node with its depth. It keeps only the
  current node and finds the next one over the links, climbing where a subtree is finished.
* `walk` visits what is below a node in the same order and lets the visitor change the tree. The next
  sibling is looked up before a visit and the first child after it, so a visitor may detach the
  node that it is given.
-/

namespace Shorthand.Tree

/-- The node that follows the finished subtree of `id`, at depth `depth`, below `top`. -/
def climb (t : Tree) (top id : NodeId) : (depth : Nat) → Option (NodeId × Nat)
  | 0 => (t.next id).map (·, 0)
  | depth + 1 =>
    match t.next id with
    | some next => some (next, depth + 1)
    | none =>
      match t.parent id with
      | none => none
      | some parent => if parent = top then none else t.climb top parent depth

/-- The node that follows `id` in pre-order below `top`. -/
def successor (t : Tree) (top id : NodeId) (depth : Nat) : Option (NodeId × Nat) :=
  match t.firstChild id with
  | some child => some (child, depth + 1)
  | none => t.climb top id depth

/-- The nodes from the given one on, at most `steps` of them, behind those in `found` (last first). -/
def listing (t : Tree) (top : NodeId) (found : List (NodeId × Nat)) :
    (steps : Nat) → Option (NodeId × Nat) → List (NodeId × Nat)
  | 0, _ => found.reverse
  | _ + 1, none => found.reverse
  | steps + 1, some (id, depth) =>
    t.listing top ((id, depth) :: found) steps (t.successor top id depth)

/-- Every node below `id` in pre-order with its depth; children of `id` have depth zero.

A listing that ends never shows a node twice at the same depth, and no depth beyond the number of
nodes. -/
def descendants (t : Tree) (id : NodeId) : List (NodeId × Nat) :=
  t.listing id [] (t.size * (t.size + 1)) ((t.firstChild id).map (·, 0))

/-- Does a visitor go on? -/
inductive Flow where
  | proceed
  | stop
  deriving DecidableEq, Repr

/-- A visitor gets the tree, a node and its depth, and a state of its own. -/
abbrev Visitor (σ : Type) := Tree → σ → NodeId → Nat → Flow × Tree × σ

/-- The result of a walk. -/
structure Walk (σ : Type) where
  tree : Tree
  state : σ
  /-- Did the visitor stop the walk? -/
  stopped : Bool

/-- Visits the siblings on the stack, each entry being the next sibling at some depth, for at most
`steps` entries. -/
def walkStack {σ : Type} (visit : Visitor σ) :
    (steps : Nat) → List (Option NodeId × Nat) → Tree → σ → Walk σ
  | 0, _, t, s => ⟨t, s, false⟩
  | _ + 1, [], t, s => ⟨t, s, false⟩
  | steps + 1, (none, _) :: stack, t, s => walkStack visit steps stack t s
  | steps + 1, (some id, depth) :: stack, t, s =>
    let next := t.next id
    match visit t s id depth with
    | (.stop, t, s) => ⟨t, s, true⟩
    | (.proceed, t, s) =>
      walkStack visit steps ((t.firstChild id, depth + 1) :: (next, depth) :: stack) t s

/-- Visits every node below `id` in pre-order. A visit is one step, and so is coming to the end of a
sequence of siblings; there are at most `steps` of them, because a visitor may keep adding children
for ever. -/
def walk {σ : Type} (steps : Nat) (visit : Visitor σ) (t : Tree) (id : NodeId) (s : σ) : Walk σ :=
  walkStack visit steps [(t.firstChild id, 0)] t s

end Shorthand.Tree
