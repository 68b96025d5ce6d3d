import Shorthand.Node

/-!
# Multiplicity

How often a node, with what is below it, comes up in an expansion for each time that its parent does.
-/

namespace Shorthand.Expansion

/-- The number of copies that a node asks for; one if it has no pending repeat. -/
def multiplicity (n : Node) : Nat :=
  match n.pendingRepeat with
  | some r => r.copies
  | none => 1

end Shorthand.Expansion
