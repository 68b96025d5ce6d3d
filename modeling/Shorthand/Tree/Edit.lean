import Shorthand.Tree.Basic

/-!
# Moving nodes

Nodes are moved by relinking: detached (`remove`), put last (`append`) or in front of a sibling
(`insertBefore`), replaced by their children (`splice`), and copied (`copyNode`, `copyTree`). Moving a
node always detaches it first, so no node ever has two parents.
-/

namespace Shorthand.Tree

/-- Changes the links of a neighbour or, where there is none, of the parent. -/
def relink (t : Tree) (neighbour : Option NodeId) (parent : NodeId)
    (ofNeighbour ofParent : Links → Links) : Tree :=
  match neighbour with
  | some id => t.modifyLinks id ofNeighbour
  | none => t.modifyLinks parent ofParent

/-- Detaches a node, with all below it, from its parent. A detached node stays as it is. -/
def remove (t : Tree) (id : NodeId) : Tree :=
  let links := t.links id
  match links.parent with
  | none => t
  | some parent =>
    -- The neighbours, or the parent where there is none, close the gap.
    let t := t.relink links.previous parent
      (fun l => { l with next := links.next }) (fun l => { l with firstChild := links.next })
    let t := t.relink links.next parent
      (fun l => { l with previous := links.previous })
      (fun l => { l with lastChild := links.previous })
    t.modifyLinks id fun l => { l with parent := none, previous := none, next := none }

/-- Makes a node the last child of `parent`, wherever it was. -/
def append (t : Tree) (parent child : NodeId) : Tree :=
  let t := t.remove child
  let last := t.lastChild parent
  let t := t.modifyLinks child fun l => { l with parent := some parent, previous := last }
  let t := t.relink last parent
    (fun l => { l with next := some child }) (fun l => { l with firstChild := some child })
  t.modifyLinks parent fun l => { l with lastChild := some child }

/-- Puts a node right in front of `sibling`. In front of a detached node, or of itself, it stays
where it is. -/
def insertBefore (t : Tree) (id sibling : NodeId) : Tree :=
  if id = sibling then t
  else
    match t.parent sibling with
    | none => t
    | some parent =>
      let t := t.remove id
      -- Looked up only now: the node may have stood right in front of the sibling.
      let previous := t.previous sibling
      let t := t.modifyLinks id fun l =>
        { l with parent := some parent, previous := previous, next := some sibling }
      let t := t.modifyLinks sibling fun l => { l with previous := some id }
      t.relink previous parent
        (fun l => { l with next := some id }) (fun l => { l with firstChild := some id })

/-- Puts the children of a node, in order, in its place, and tells which they are. The children of a
detached node become detached. So does the node in any case. -/
def splice (t : Tree) (id : NodeId) : Tree × List NodeId :=
  let children := t.children id
  let attached := (t.parent id).isSome
  let move := fun (t : Tree) child => if attached then t.insertBefore child id else t.remove child
  ((children.foldl move t).remove id, children)

/-! ### Copies -/

/-- Copies the data of a node to the next place, detached. -/
def copyNode (t : Tree) (id : NodeId) : Tree :=
  t.push (t.node id)

/-- Copies one child below `target`, and notes that its own children are still to be copied. -/
def copyChild (target : NodeId) (state : Tree × List (NodeId × NodeId)) (child : NodeId) :
    Tree × List (NodeId × NodeId) :=
  let (t, pending) := state
  let copy := t.nextId
  ((t.copyNode child).append target copy, (child, copy) :: pending)

/-- Copies what is below the pending nodes, each given with its copy, for at most `steps` of them. The
node noted last goes first. -/
def copyBelow : (steps : Nat) → List (NodeId × NodeId) → Tree → Tree
  | 0, _, t => t
  | _ + 1, [], t => t
  | steps + 1, (source, target) :: pending, t =>
    let (t, pending) := (t.children source).foldl (copyChild target) (t, pending)
    copyBelow steps pending t

/-- Copies a node with all below it, repeats included, to the next places. The copy is detached and
has the first of these places. -/
def copyTree (t : Tree) (id : NodeId) : Tree :=
  copyBelow (grantedSteps t.size) [(id, t.nextId)] (t.copyNode id)

end Shorthand.Tree
