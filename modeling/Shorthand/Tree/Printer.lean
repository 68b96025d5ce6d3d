import Shorthand.Node.Printer
import Shorthand.Tree.Basic

/-!
# Abbreviations from trees

A tree is written compactly: children after `>`, siblings with `+` between them, groups in
parentheses. A node with children that is not the last of its siblings stands in parentheses too,
because what follows would land among its children otherwise.

Nodes that came out of an expansion carry the number of their copy as `*N@k`. That form is for
inspection and does not read back; the option `stamps` turns it off.

What is still to be written is kept on a stack of steps, so depth is no concern.
-/

namespace Shorthand.Tree

/-- Something still to be written. -/
inductive Step where
  | node (id : NodeId)
  | children (id : NodeId)
  | repeats (r : Repeat)
  | text (content : String)
  deriving DecidableEq, Repr

/-- Does a node need parentheses when a sibling follows? -/
def needsParens (t : Tree) (id : NodeId) : Bool :=
  !(t.node id).isGroup && t.hasChildren id

/-- A node that a sibling follows, in front of the steps for the siblings. -/
def joinStep (t : Tree) (steps : List Step) (id : NodeId) : List Step :=
  if t.needsParens id then .text "(" :: .node id :: .text ")" :: .text "+" :: steps
  else .node id :: .text "+" :: steps

/-- The steps for a sequence of siblings, given last first, in front of others. -/
def siblingSteps (t : Tree) (steps : List Step) : List NodeId → List Step
  | [] => steps
  | last :: others => others.foldl t.joinStep (.node last :: steps)

/-- Takes one step: what it writes, and the steps that it leads to. -/
def takeStep (t : Tree) (stamps : Bool) (steps : List Step) : Step → String × List Step
  | .text content => (content, steps)
  | .repeats r => (r.write stamps, steps)
  | .children id => ("", t.siblingSteps steps (t.children id).reverse)
  | .node id =>
    let n := t.node id
    if n.isGroup then
      let steps := match n.repeats with
        | some r => .repeats r :: steps
        | none => steps
      ("(", .children id :: .text ")" :: steps)
    else if t.hasChildren id then (n.write stamps ++ ">", .children id :: steps)
    else (n.write stamps, steps)

/-- Takes at most `fuel` steps, behind the text `done`. -/
def writeSteps (t : Tree) (stamps : Bool) : (fuel : Nat) → (done : String) → List Step → String
  | 0, done, _ => done
  | _ + 1, done, [] => done
  | fuel + 1, done, step :: steps =>
    let taken := t.takeStep stamps steps step
    t.writeSteps stamps fuel (done ++ taken.1) taken.2

/-- A node leads to at most seven steps each time it is reached: itself, its children, a closing
parenthesis and a repeat of its own, and two parentheses and a `+` among its siblings. -/
def stepBound (t : Tree) : Nat :=
  grantedSteps (7 * t.size + 1)

/-- The abbreviation of what is below the root. -/
def write (t : Tree) (stamps : Bool) : String :=
  t.writeSteps stamps t.stepBound "" [.children t.root]

/-- The abbreviation of a node and what is below it. -/
def writeNode (t : Tree) (id : NodeId) (stamps : Bool) : String :=
  t.writeSteps stamps t.stepBound "" [.node id]

end Shorthand.Tree
