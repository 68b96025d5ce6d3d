import Mathlib.Algebra.BigOperators.Ring.List
import Mathlib.Algebra.Ring.Nat
import Shorthand.Proofs.Expansion.ExactFit
import Shorthand.Proofs.Tree.Descendants

/-!
# The size of an expansion

How many nodes an expansion has can be read off the tree before: each node, groups apart, comes up as
often as the product of the multiplicities on the way down to it, and the size is the sum of these
products (`unroll_nodes_eq_sum`).

The recursion `Forest.expandedSize` lies between the two. On one side it is the size of the expanded
forest (`Forest.size_expand`); on the other it takes the multiplicity of a node out of the sum over
all that is below it (`Tree.Sound.sum_weights`).
-/

namespace Shorthand

theorem Forest.expandedSize_eq_sum (f : Forest) : expandedSize f = (f.map Branch.expandedSize).sum := by
  induction f with
  | nil => simp [expandedSize]
  | cons b f ih => rw [expandedSize, ih, List.map_cons, List.sum_cons]

/-! ### Products along paths -/

namespace Tree

open Expansion (multiplicity)

variable {t : Tree}

/-- The path that leads up from a node: the node itself, and as many nodes above it as `levels`
says. -/
def path (t : Tree) (levels : Nat) (id : NodeId) : List NodeId :=
  (List.range (levels + 1)).filterMap fun k => t.ancestor k id

/-- The product of the multiplicities along a path. -/
def weight (t : Tree) (levels : Nat) (id : NodeId) : Nat :=
  ((t.path levels id).map fun u => multiplicity (t.node u)).prod

theorem weight_zero (t : Tree) (id : NodeId) : t.weight 0 id = multiplicity (t.node id) := by
  simp [weight, path, ancestor]

/-- A longer path has one more factor. -/
theorem weight_succ {levels : Nat} {id above : NodeId} (h : t.ancestor (levels + 1) id = some above) :
    t.weight (levels + 1) id = multiplicity (t.node above) * t.weight levels id := by
  have hpath : t.path (levels + 1) id = t.path levels id ++ [above] := by
    rw [path, List.range_succ, List.filterMap_append, ← path]
    simp [h]
  rw [weight, hpath, List.map_append, List.prod_append, ← weight, Nat.mul_comm]
  simp

/-- The sum of the products along the paths from the listed nodes up to the given depth, groups
apart. -/
def weights (t : Tree) (depth : Nat) (entries : List (NodeId × Nat)) : Nat :=
  ((entries.filter fun e => !(t.node e.1).isGroup).map fun e => t.weight (e.2 - depth) e.1).sum

theorem weights_cons (t : Tree) (depth : Nat) (e : NodeId × Nat) (entries : List (NodeId × Nat)) :
    t.weights depth (e :: entries) =
      (if (t.node e.1).isGroup then 0 else t.weight (e.2 - depth) e.1) + t.weights depth entries := by
  by_cases hg : (t.node e.1).isGroup <;> simp [weights, hg]

theorem weights_flatMap {α : Type} (t : Tree) (depth : Nat) (g : α → List (NodeId × Nat)) (l : List α) :
    t.weights depth (l.flatMap g) = (l.map fun a => t.weights depth (g a)).sum := by
  induction l with
  | nil => rfl
  | cons a l ih =>
      rw [List.map_cons, List.sum_cons, ← ih, List.flatMap_cons]
      simp [weights]

/-- One level further up, all paths from below a child have the parent as one more factor. -/
theorem Sound.weights_child (h : t.Sound) {p c : NodeId} (hc : c ∈ t.children p) (depth : Nat) :
    t.weights depth (t.preorder (depth + 1) c) =
      multiplicity (t.node p) * t.weights (depth + 1) (t.preorder (depth + 1) c) := by
  have hstep : ∀ e ∈ t.preorder (depth + 1) c, t.weight (e.2 - depth) e.1 =
      multiplicity (t.node p) * t.weight (e.2 - (depth + 1)) e.1 := by
    rintro ⟨x, d⟩ he
    obtain ⟨levels, rfl, hx⟩ := h.mem_preorder_iff.1 he
    have hp : t.ancestor (levels + 1) x = some p :=
      ancestor_succ_eq_some.2 ⟨c, h.parent_eq_some_iff.2 hc, hx⟩
    have hlevels : depth + 1 + levels - depth = levels + 1 := by omega
    rw [hlevels, Nat.add_sub_cancel_left, weight_succ hp]
  rw [weights, weights, ← List.sum_map_mul_left]
  refine congrArg List.sum (List.map_congr_left fun e he => hstep e ?_)
  exact List.mem_of_mem_filter he

/-- The products along the paths within a branch add up to the size that it expands to. -/
theorem Sound.sum_weights (h : t.Sound) (depth : Nat) (id : NodeId) :
    t.weights depth (t.preorder depth id) = (t.branch id).expandedSize := by
  refine h.induction (P := fun id => ∀ depth,
    t.weights depth (t.preorder depth id) = (t.branch id).expandedSize) ?_ id depth
  intro id ih depth
  have hbelow : t.weights depth ((t.children id).flatMap (t.preorder (depth + 1))) =
      multiplicity (t.node id) * Forest.expandedSize ((t.children id).map t.branch) := by
    rw [weights_flatMap, Forest.expandedSize_eq_sum, List.map_map, ← List.sum_map_mul_left]
    refine congrArg List.sum (List.map_congr_left fun c hc => ?_)
    rw [h.weights_child hc, ih c hc (depth + 1)]
    rfl
  rw [h.preorder_eq, weights_cons, hbelow, h.branch_eq, Branch.expandedSize, Nat.mul_add,
    Nat.sub_self, weight_zero]
  by_cases hg : (t.node id).isGroup <;> simp [hg]

end Tree

namespace Expansion

/-- **The size of an expansion is the sum of path products.** The sum goes over all nodes below the
root, groups apart, and the product over the path from the node up to, and without, the root. -/
theorem unroll_nodes_eq_sum (t : Tree) (hcoherent : t.Coherent) (hacyclic : t.Acyclic) :
    (unroll t).2.nodes =
        (((t.descendants t.root).filter fun e => !(t.node e.1).isGroup).map fun e =>
          ((t.path e.2 e.1).map fun u => multiplicity (t.node u)).prod).sum ∧
      (∀ e ∈ t.descendants t.root, t.ancestor (e.2 + 1) e.1 = some t.root) ∧
      (unroll t).2.truncated = false := by
  have h : t.Sound := ⟨hcoherent, hacyclic⟩
  obtain ⟨hyields, htruncated⟩ := yields_unrollWithin h none
  refine ⟨?_, fun e he => h.mem_descendants.1 he, ?_⟩
  · have hweights : t.weights 0 (t.descendants t.root) = Forest.expandedSize t.forest := by
      rw [h.descendants_eq, Tree.weights_flatMap, h.forest_eq, Forest.expandedSize_eq_sum, List.map_map]
      exact congrArg List.sum (List.map_congr_left fun c _ => h.sum_weights 0 c)
    calc (unroll t).2.nodes
        = (unroll t).1.contents.length := elementCount_eq hyields.sound (concrete_unrollWithin h none)
      _ = t.weights 0 (t.descendants t.root) := by
          rw [length_contents_unroll h, Forest.size_expand, hweights]
      _ = _ := rfl
  · rw [unroll, htruncated, (Forest.unrolls_expandWithin t.forest).unbounded]
    rfl

/-- In `(a*3>b)*2+c*0>d` the group and `a` count for `a` and for `b`, and `c` leaves nothing of `d`.
-/
theorem unroll_nodes_eq_sum_nested : ∃ t, Tree.parse "(a*3>b)*2+c*0>d" = .ok t ∧ t.Coherent ∧ t.Acyclic ∧
    ((t.descendants t.root).filter fun e => !(t.node e.1).isGroup) =
      [(⟨2⟩, 1), (⟨3⟩, 2), (⟨4⟩, 0), (⟨5⟩, 1)] ∧
    t.path 2 ⟨3⟩ = [⟨3⟩, ⟨2⟩, ⟨1⟩] ∧
    (unroll t).2 = { nodes := 3 * 2 + 1 * 3 * 2 + 0 + 1 * 0, truncated := false } := by
  obtain ⟨t, hparse, hresult⟩ : ∃ t, Tree.parse "(a*3>b)*2+c*0>d" = .ok t ∧
      (((t.descendants t.root).filter fun e => !(t.node e.1).isGroup), t.path 2 ⟨3⟩,
        [(⟨2⟩, 1), (⟨3⟩, 2), (⟨4⟩, 0), (⟨5⟩, 1)].map fun e : NodeId × Nat =>
          ((t.path e.2 e.1).map fun u => multiplicity (t.node u)).prod) =
        ([(⟨2⟩, 1), (⟨3⟩, 2), (⟨4⟩, 0), (⟨5⟩, 1)], [⟨3⟩, ⟨2⟩, ⟨1⟩], [6, 6, 0, 0]) :=
    Tree.exists_parse_of_map (by decide +kernel)
  simp only [Prod.mk.injEq] at hresult
  obtain ⟨hlist, hpath, hproducts⟩ := hresult
  have h := (Tree.parse_ok hparse).1
  obtain ⟨hnodes, -, hwhole⟩ := unroll_nodes_eq_sum t h.coherent h.acyclic
  rw [hlist, hproducts] at hnodes
  refine ⟨t, hparse, h.coherent, h.acyclic, hlist, hpath, ?_⟩
  calc (unroll t).2 = ⟨(unroll t).2.nodes, (unroll t).2.truncated⟩ := rfl
    _ = ⟨[6, 6, 0, 0].sum, false⟩ := by rw [← hnodes, ← hwhole]

end Expansion

end Shorthand
