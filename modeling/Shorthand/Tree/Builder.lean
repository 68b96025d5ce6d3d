import Shorthand.Item
import Shorthand.Text.WhiteSpace
import Shorthand.Tree.Edit

/-!
# Trees from abbreviations

`Tree.parse` reads the items of an abbreviation and puts them into a tree as they come. A `Builder`
holds the tree, the node below which the next item goes (the *context*) and the groups that are open.

The node of an open group is **detached** until the group is closed, so climbing inside a group
cannot leave it. A group that is closed without a repeat hands its children over to the context
that it was opened in, and is not part of the tree; with a repeat, the group itself goes there.
-/

namespace Shorthand

/-- A group that is not closed yet. -/
structure OpenGroup where
  node : NodeId
  /-- The context that the group was opened in. -/
  context : NodeId
  /-- The place of its `(`. -/
  start : Cursor
  deriving DecidableEq, Repr

/-- A tree that is being built. -/
structure Builder where
  tree : Tree
  context : NodeId
  /-- The open groups, innermost first. -/
  groups : List OpenGroup
  deriving DecidableEq, Repr

namespace Builder

/-- Nothing but the root, which is the context. -/
def start : Builder :=
  { tree := .empty, context := Tree.empty.root, groups := [] }

/-- The node a number of levels above the given one, or the topmost node if it is nearer. -/
def above (t : Tree) (id : NodeId) : Nat → NodeId
  | 0 => id
  | levels + 1 =>
    match t.parent id with
    | none => id
    | some parent => above t parent levels

/-- The context behind an element that is at `id`. -/
def follow (t : Tree) (context id : NodeId) : Joint → NodeId
  | .beside => context
  | .inside => id
  | .up levels => above t context levels

/-- Closes a group into the context that it was opened in. -/
def close (t : Tree) (group : OpenGroup) : Option Repeat → Tree
  | none => (t.children group.node).foldl (fun t child => t.append group.context child) t
  | some r =>
    (t.modifyNode group.node fun n => { n with repeats := some r }).append group.context group.node

/-- Puts an item, which stands at `c`, into the tree. There is no way to do so for a group end when
no group is open. -/
def add? (b : Builder) (c : Cursor) (item : Item) : Option Builder :=
  match b, item with
  | ⟨tree, context, groups⟩, .groupStart =>
    let id := tree.nextId
    some ⟨tree.push {}, id, { node := id, context, start := c } :: groups⟩
  | ⟨_, _, []⟩, .groupEnd _ => none
  | ⟨tree, _, group :: groups⟩, .groupEnd repeats =>
    some ⟨close tree group repeats, group.context, groups⟩
  | ⟨tree, context, groups⟩, .element node joint =>
    let id := tree.nextId
    let tree := (tree.push node).append context id
    -- Climbing starts at the context, not at the element.
    let context := follow tree context id joint
    some ⟨tree, context, groups⟩

/-- The finished tree, unless a group is open; the outermost one is to blame then. -/
def finish (b : Builder) : Except Fault Tree :=
  match b.groups.getLast? with
  | none => .ok b.tree
  | some group => .error (group.start.fault .openGroup)

/-- Reads the remaining items into the tree. -/
def run (b : Builder) (c : Cursor) : Except Fault Tree :=
  if c.atEnd then b.finish
  else
    match _h : Item.read c with
    | .error failure => .error failure.fault
    | .ok (item, c') =>
      match b.add? c item with
      | none => .error (c.fault .strayGroupEnd)
      | some b => b.run c'
termination_by c.rest.length
decreasing_by exact Item.length_rest_of_read _h

end Builder

/-- The tree of an abbreviation, white space around it apart. -/
def Tree.parse (source : String) : Except Fault Tree :=
  Builder.start.run (Cursor.ofList (Text.trim source.toList))

end Shorthand
