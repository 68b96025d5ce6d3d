import Shorthand.Proofs.Tree.Builder

/-!
# The iterator lists the recursive pre-order

`descendants` keeps one node and its depth, and finds its way over the links. On a sound tree it comes
to an end, and what it has listed is what the recursion over child sequences lists
(`descendants_preorder`).

Where a node stands in a tree is said by the parent links alone: `ancestor n x` is the node that `n`
of them lead to from `x`. An entry `(x, depth)` is in the listing below a node if and only if `depth
+ 1` parent links lead from `x` to that node (`Sound.mem_descendants`), so nothing else is listed,
nothing is missed, and every depth is right.
-/

namespace Shorthand.Tree

variable {t : Tree}

/-- The node that `steps` parent links lead to. -/
def ancestor (t : Tree) : (steps : Nat) → NodeId → Option NodeId
  | 0, id => some id
  | steps + 1, id => (t.ancestor steps id).bind t.parent

/-- The last of the links comes from a child. -/
theorem ancestor_succ_eq_some {steps : Nat} {x id : NodeId} :
    t.ancestor (steps + 1) x = some id ↔
      ∃ c, t.parent c = some id ∧ t.ancestor steps x = some c := by
  simp only [ancestor, Option.bind_eq_some_iff, and_comm]

/-- An entry of a pre-order is as much deeper than the head as there are links between the two. -/
theorem Sound.mem_preorder_iff (h : t.Sound) {id x : NodeId} {depth d : Nat} :
    (x, d) ∈ t.preorder depth id ↔ ∃ steps, d = depth + steps ∧ t.ancestor steps x = some id := by
  refine h.induction (P := fun id => ∀ depth,
    (x, d) ∈ t.preorder depth id ↔ ∃ steps, d = depth + steps ∧ t.ancestor steps x = some id)
    ?_ id depth
  intro id ih depth
  rw [h.preorder_eq, List.mem_cons, List.mem_flatMap]
  constructor
  · rintro (heq | ⟨c, hc, hx⟩)
    · obtain ⟨rfl, rfl⟩ := Prod.mk.inj heq
      exact ⟨0, rfl, rfl⟩
    · obtain ⟨steps, hd, hsteps⟩ := (ih c hc (depth + 1)).1 hx
      exact ⟨steps + 1, by omega, ancestor_succ_eq_some.2 ⟨c, h.parent_eq_some_iff.2 hc, hsteps⟩⟩
  · rintro ⟨steps, hd, hsteps⟩
    cases steps with
    | zero =>
        obtain rfl := Option.some.inj hsteps
        exact Or.inl (by rw [hd, Nat.add_zero])
    | succ steps =>
        obtain ⟨c, hc, hx⟩ := ancestor_succ_eq_some.1 hsteps
        have hmem := h.parent_eq_some_iff.1 hc
        exact Or.inr ⟨c, hmem, (ih c hmem (depth + 1)).2 ⟨steps, by omega, hx⟩⟩

theorem Sound.mem_descendants (h : t.Sound) {id x : NodeId} {depth : Nat} :
    (x, depth) ∈ t.descendants id ↔ t.ancestor (depth + 1) x = some id := by
  rw [h.descendants_eq, List.mem_flatMap, ancestor_succ_eq_some]
  constructor
  · rintro ⟨c, hc, hx⟩
    obtain ⟨steps, hd, hsteps⟩ := h.mem_preorder_iff.1 hx
    obtain rfl : depth = steps := by omega
    exact ⟨c, h.parent_eq_some_iff.2 hc, hsteps⟩
  · rintro ⟨c, hc, hx⟩
    exact ⟨c, h.parent_eq_some_iff.1 hc, h.mem_preorder_iff.2 ⟨depth, by omega, hx⟩⟩

theorem Sound.nodup_descendants (h : t.Sound) (id : NodeId) :
    ((t.descendants id).map Prod.fst).Nodup := by
  rw [h.descendants_eq]
  exact h.nodup_siblings (List.Sublist.refl _) fun c _ => h.nodup_preorder 0 c

/-- The nodes listed are those strictly below. -/
theorem Sound.mem_map_descendants (h : t.Sound) {id x : NodeId} :
    x ∈ (t.descendants id).map Prod.fst ↔ t.Below id x ∧ x ≠ id := by
  rw [h.descendants_eq, List.map_flatMap, List.mem_flatMap]
  constructor
  · rintro ⟨c, hc, hx⟩
    have hparent := h.parent_eq_some_iff.2 hc
    have hbelow := (h.mem_preorder 0).1 hx
    refine ⟨Below.of_parent hparent hbelow, ?_⟩
    rintro rfl
    exact h.acyclic.not_below_of_parent hparent hbelow
  · rintro ⟨hbelow, hne⟩
    rcases hbelow.cases_child with heq | ⟨c, hc, hx⟩
    · exact absurd heq hne
    · exact ⟨c, h.parent_eq_some_iff.1 hc, (h.mem_preorder 0).2 hx⟩

/-- **The iterator lists the recursive pre-order.** However many steps it may take beyond those that
it needs, it lists the same; what it lists is the pre-order of each child in turn, with the children
at depth zero; every node strictly below is listed once and no other node is; and the depth of a
node is one less than the number of parent links that lead from it to `id`. -/
theorem descendants_preorder (t : Tree) (hcoherent : t.Coherent) (hacyclic : t.Acyclic) (id : NodeId) :
    (∀ steps, (t.descendants id).length ≤ steps →
        t.listing id [] steps ((t.firstChild id).map (·, 0)) = t.descendants id) ∧
      t.descendants id = (t.children id).flatMap (t.preorder 0) ∧
      (∀ depth x, t.preorder depth x =
        (x, depth) :: (t.children x).flatMap (t.preorder (depth + 1))) ∧
      ((t.descendants id).map Prod.fst).Nodup ∧
      (∀ x, x ∈ (t.descendants id).map Prod.fst ↔ t.Below id x ∧ x ≠ id) ∧
      ∀ x depth, (x, depth) ∈ t.descendants id ↔ t.ancestor (depth + 1) x = some id := by
  have h : t.Sound := ⟨hcoherent, hacyclic⟩
  refine ⟨fun steps hle => ?_, h.descendants_eq id, h.preorder_eq, h.nodup_descendants id,
    fun x => h.mem_map_descendants, fun x depth => h.mem_descendants⟩
  rw [h.descendants_eq] at hle ⊢
  exact h.listing_eq id hle

/-- Below `a`, which has a sibling behind it, there are `b` and `c`: the climb from `c` passes two
nodes and stops short of `d`. -/
theorem descendants_preorder_inner : ∃ t, Tree.parse "p>a>b>c^^d" = .ok t ∧ t.Coherent ∧ t.Acyclic ∧
    t.next ⟨2⟩ = some ⟨5⟩ ∧ t.descendants ⟨2⟩ = [(⟨3⟩, 0), (⟨4⟩, 1)] ∧
    t.ancestor 2 ⟨4⟩ = some ⟨2⟩ ∧ ∀ depth, t.ancestor (depth + 1) ⟨5⟩ ≠ some ⟨2⟩ := by
  obtain ⟨t, hparse, hresult⟩ : ∃ t, Tree.parse "p>a>b>c^^d" = .ok t ∧
      (t.next ⟨2⟩, t.descendants ⟨2⟩) = (some ⟨5⟩, [(⟨3⟩, 0), (⟨4⟩, 1)]) :=
    Tree.exists_parse_of_map (by decide +kernel)
  obtain ⟨hnext, hlist⟩ := Prod.mk.inj hresult
  have h := (Tree.parse_ok hparse).1
  obtain ⟨-, -, -, -, -, hmem⟩ := descendants_preorder t h.coherent h.acyclic ⟨2⟩
  refine ⟨t, hparse, h.coherent, h.acyclic, hnext, hlist, ?_, fun depth hd => ?_⟩
  · exact (hmem ⟨4⟩ 1).1 (by simp [hlist])
  · have hlisted := (hmem ⟨5⟩ depth).2 hd
    simp [hlist] at hlisted

end Shorthand.Tree
