import Shorthand.Expansion.Unroll
import Shorthand.Tree.Builder

/-!
# Expansion

Expands the repeats of a tree or of an abbreviation. In strict mode a tree with a bare `*` is refused
and not changed.
-/

namespace Shorthand

/-- What an expansion came to. -/
structure Expansion where
  /-- The nodes left in the tree, groups apart. -/
  nodes : Nat
  /-- Did the budget cut anything off? -/
  truncated : Bool
  deriving DecidableEq, Repr

namespace Expansion

/-- Why an expansion is refused. -/
inductive Refusal where
  /-- The abbreviation cannot be read. -/
  | unreadable (fault : Fault)
  /-- The node at this place in pre-order, counted from zero, has a repeat without a count. -/
  | bareRepeat (position : Nat)
  deriving DecidableEq, Repr

/-- The wording of a refusal. -/
def Refusal.message : Refusal → String
  | .unreadable fault => fault.message
  | .bareRepeat position =>
    "Repeat without a count on node " ++ Numeral.render position ++
      " is not allowed in strict mode"

/-- Does the node have a pending repeat without a count? -/
def hasBareRepeat (n : Node) : Bool :=
  n.pendingRepeat.any fun r => r.count.isNone

/-- The place in pre-order of the first node with a pending repeat without a count. -/
def bareRepeat? (t : Tree) : Option Nat :=
  (t.descendants t.root).findIdx? fun entry => hasBareRepeat (t.node entry.1)

/-- The number of nodes below the root, groups apart. -/
def elementCount (t : Tree) : Nat :=
  (t.descendants t.root).countP fun entry => !(t.node entry.1).isGroup

/-- Expands every repeat, within the limit if there is one. -/
def unrollWithin (limit : Option Nat) (t : Tree) : Tree × Expansion :=
  let (t, budget) := unrollBelow t t.root (.ofLimit limit)
  (t, { nodes := elementCount t, truncated := budget.truncated })

/-- Expands every repeat. -/
def unroll (t : Tree) : Tree × Expansion :=
  unrollWithin none t

/-- Expands every repeat, keeping at most `limit` nodes; zero means no limit. -/
def unrollLimited (t : Tree) (limit : Nat) : Tree × Expansion :=
  unrollWithin (({} : Options).withLimit limit).budget.limit? t

/-- Expands a tree as the settings say. -/
def expand (o : Options) (t : Tree) : Except Refusal (Tree × Expansion) :=
  match if o.strict then bareRepeat? t else none with
  | some position => .error (.bareRepeat position)
  | none => .ok (unrollWithin o.budget.limit? t)

/-- What is not refused is expanded within the limit. -/
theorem unrollWithin_of_expand {o : Options} {t : Tree} {result : Tree × Expansion}
    (h : expand o t = .ok result) : unrollWithin o.budget.limit? t = result := by
  rw [expand] at h
  split at h
  · exact absurd h (by simp)
  · exact Except.ok.inj h

/-- Reads an abbreviation and expands it as the settings say. -/
def ofAbbreviation (o : Options) (source : String) : Except Refusal Tree :=
  match Tree.parse source with
  | .error fault => .error (.unreadable fault)
  | .ok t => (expand o t).map Prod.fst

end Expansion

end Shorthand
