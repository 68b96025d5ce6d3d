import Shorthand.Expansion.Multiplicity
import Shorthand.Forest

/-!
# Expansion of forests

What it means to unroll the repeats of a forest, by recursion and without a budget, and how many nodes
the result has.
-/

namespace Shorthand

/-- A branch whose head carries another repeat. -/
def Branch.stamp (r : Repeat) : Branch → Branch
  | .mk node children => .mk { node with repeats := some r } children

/-- Copy number `k` of a node with a pending repeat, when `inner` is what its children unroll to. A
group gives way to them, and each takes over the stamp. -/
def Forest.copy (node : Node) (r : Repeat) (inner : Forest) (k : Nat) : Forest :=
  let stamp : Repeat := { count := r.count, copy := some k }
  if node.isGroup then inner.map (Branch.stamp stamp)
  else [.mk { node with repeats := some stamp } inner]

mutual

/-- What a branch unrolls to. -/
def Branch.expand : Branch → Forest
  | .mk node children =>
    match node.pendingRepeat with
    | some r =>
      (List.range r.copies).flatMap fun k => Forest.copy node r (Forest.expand children) (k + 1)
    | none =>
      if node.isGroup then Forest.expand children else [.mk node (Forest.expand children)]

/-- What a forest unrolls to. -/
def Forest.expand : List Branch → Forest
  | [] => []
  | b :: bs => b.expand ++ Forest.expand bs

end

mutual

/-- The number of nodes that a branch unrolls to: each node, groups apart, as often as the product of
the multiplicities on the way down to it. -/
def Branch.expandedSize : Branch → Nat
  | .mk node children =>
    Expansion.multiplicity node * ((if node.isGroup then 0 else 1) + Forest.expandedSize children)

/-- The number of nodes that a forest unrolls to. -/
def Forest.expandedSize : List Branch → Nat
  | [] => 0
  | b :: bs => b.expandedSize + Forest.expandedSize bs

end

end Shorthand
