import Shorthand.Expansion.Multiplicity
import Shorthand.Expansion.Options
import Shorthand.Tree.Edit
import Shorthand.Tree.Traversal

/-!
# Unrolling repeats

Every pending repeat of `n` copies is replaced by `n` copies of its node, with all below it, each
carrying its number from one on; a bare `*` makes one copy. A copy of a group has its own repeats
unrolled first; then its children take its place, and each of them takes over the number and the
count of the group. So no group is left.

With a budget the result is cut: once the budget is spent, every node that would follow is dropped,
and a copy that did not fit is dropped whole, with every copy around it that is not finished.

What is still to be done is kept on a stack of frames, and the tree is changed in place:

* `Frame.siblings` goes through a sequence of siblings;
* `Frame.copies` makes the copies of one node, each right in front of it, and removes the node at
  last.

The loop takes `Work.run` steps, of which as many are granted as `workBound` reads off the tree
beforehand, and more.
-/

namespace Shorthand.Expansion

/-- The nodes that may still be placed, and whether anything was cut. -/
structure Budget where
  remaining : Option Nat
  truncated : Bool := false
  deriving DecidableEq, Repr

namespace Budget

/-- An untouched budget. -/
def ofLimit (limit : Option Nat) : Budget :=
  { remaining := limit }

/-- May no more nodes be placed? -/
def isExhausted (b : Budget) : Bool :=
  b.remaining = some 0

/-- One node has been placed. -/
def spend (b : Budget) : Budget :=
  { b with remaining := b.remaining.map (· - 1) }

/-- Something has been cut. -/
def truncate (b : Budget) : Budget :=
  { b with truncated := true }

end Budget

/-- Something still to be done. -/
inductive Frame where
  /-- Siblings still to be gone through, from `next` on. -/
  | siblings (next : Option NodeId)
  /-- Copies of `template` still to be made, after `made` of them. What is below `current`, the copy
  made last, has been unrolled by the time the frame comes up again. -/
  | copies (template : NodeId) (repeats : Repeat) (made : Nat) (current : Option NodeId)
  deriving DecidableEq, Repr

/-- The state of an unrolling. -/
structure Work where
  tree : Tree
  budget : Budget
  stack : List Frame
  deriving DecidableEq, Repr

/-- Writes a repeat into a node. -/
def setRepeat (r : Repeat) (t : Tree) (id : NodeId) : Tree :=
  t.modifyNode id fun n => { n with repeats := some r }

/-- Settles a copy below which all has been unrolled: it is dropped if anything was cut, and a group
gives its place to its children, which take over its repeat. -/
def settle (t : Tree) (copy : NodeId) (stamp : Repeat) (truncated : Bool) : Tree :=
  if truncated then t.remove copy
  else if (t.node copy).isGroup then
    let (t, children) := t.splice copy
    children.foldl (setRepeat stamp) t
  else t

/-- Goes on with the sibling `id`. Copies are put in front of it, so the one behind it is the next. -/
def visitSibling (t : Tree) (budget : Budget) (stack : List Frame) (id : NodeId) : Work :=
  let next := t.next id
  if budget.isExhausted then ⟨t.remove id, budget.truncate, .siblings next :: stack⟩
  else
    match (t.node id).pendingRepeat with
    | some r => ⟨t, budget, .copies id r 0 none :: .siblings next :: stack⟩
    | none =>
      if (t.node id).isGroup then
        -- Its children are siblings now, and are gone through next.
        let (t, children) := t.splice id
        ⟨t, budget, .siblings (children.head?.or next) :: stack⟩
      else
        let first := t.firstChild id
        ⟨t, budget.spend, .siblings first :: .siblings next :: stack⟩

/-- Makes the next copy of `template`, of which `made` have been made, or finishes with it. -/
def visitCopies (t : Tree) (budget : Budget) (stack : List Frame) (template : NodeId) (r : Repeat)
    (made : Nat) : Work :=
  if made = r.copies then ⟨t.remove template, budget, stack⟩
  else if budget.isExhausted then ⟨t.remove template, budget.truncate, stack⟩
  else
    let copy := t.nextId
    let t := t.copyTree template
    let t := setRepeat { count := r.count, copy := some (made + 1) } t copy
    let t := t.insertBefore copy template
    -- A group costs nothing itself; the nodes in it will.
    let budget := if (t.node copy).isGroup then budget else budget.spend
    let first := t.firstChild copy
    ⟨t, budget, .siblings first :: .copies template r (made + 1) (some copy) :: stack⟩

namespace Work

/-- Takes one step. -/
def step (t : Tree) (budget : Budget) (stack : List Frame) : Frame → Work
  | .siblings none => ⟨t, budget, stack⟩
  | .siblings (some id) => visitSibling t budget stack id
  | .copies template r made none => visitCopies t budget stack template r made
  | .copies template r made (some copy) =>
    let t := settle t copy { count := r.count, copy := some made } budget.truncated
    visitCopies t budget stack template r made

/-- Takes steps until nothing is left to do, at most `fuel` of them. -/
def run : (fuel : Nat) → Work → Work
  | 0, work => work
  | _ + 1, ⟨t, budget, []⟩ => ⟨t, budget, []⟩
  | fuel + 1, ⟨t, budget, frame :: stack⟩ => run fuel (step t budget stack frame)

end Work

/-- A bound on the steps for nodes that are listed in pre-order. For a node with `n` copies there is
one step to meet it and one for each of its copies and their end; what follows it in the list holds
all that is below it. -/
def workBound : List Node → Nat :=
  List.foldr (fun n rest => 2 * multiplicity n + 3 + max 1 (multiplicity n) * rest) 1

/-- The state in which unrolling what is below a node ends. -/
def unrolling (t : Tree) (id : NodeId) (budget : Budget) : Work :=
  let bound := workBound ((t.descendants id).map fun entry => t.node entry.1)
  let first := t.firstChild id
  Work.run (Tree.grantedSteps bound) ⟨t, budget, [.siblings first]⟩

/-- Unrolls what is below a node. -/
def unrollBelow (t : Tree) (id : NodeId) (budget : Budget) : Tree × Budget :=
  let work := unrolling t id budget
  (work.tree, work.budget)

end Shorthand.Expansion
