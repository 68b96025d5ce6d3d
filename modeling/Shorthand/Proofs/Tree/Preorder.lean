import Shorthand.Proofs.Forest.Basic
import Shorthand.Proofs.Tree.Moves
import Shorthand.Tree.Traversal

/-!
# The pre-order of a sound tree

The iterator `descendants`, which keeps one node and climbs over the links, lists what the recursive
pre-order lists (`Sound.descendants_eq`), and with it the data of the forest below
(`Sound.map_descendants`).

What is listed is what is below (`Sound.mem_preorder`), each node once (`Sound.nodup_preorder`), so a
listing is never longer than the tree has nodes, and neither is a branch.
-/

namespace Shorthand.Tree

variable {t : Tree}

/-! ### The recursive pre-order -/

/-- The pre-order of places, read through the data, is the pre-order of the branch. -/
theorem Sound.map_preorder (h : t.Sound) (id : NodeId) (depth : Nat) :
    (t.preorder depth id).map (fun e => (t.node e.1, e.2)) = (t.branch id).preorder depth := by
  refine h.induction (P := fun id => ∀ depth,
    (t.preorder depth id).map (fun e => (t.node e.1, e.2)) = (t.branch id).preorder depth) ?_ id depth
  intro id ih depth
  rw [h.preorder_eq, h.branch_eq, Branch.preorder, Forest.preorder_eq_flatMap, List.map_cons,
    List.map_flatMap, List.flatMap_map]
  exact congrArg _ (List.flatMap_congr fun c hc => ih c hc (depth + 1))

theorem Sound.mem_preorder (h : t.Sound) {id x : NodeId} (depth : Nat) :
    x ∈ (t.preorder depth id).map Prod.fst ↔ t.Below id x := by
  refine h.induction (P := fun id => ∀ depth,
    x ∈ (t.preorder depth id).map Prod.fst ↔ t.Below id x) ?_ id depth
  intro id ih depth
  rw [h.preorder_eq, List.map_cons, List.map_flatMap, List.mem_cons, List.mem_flatMap]
  constructor
  · rintro (rfl | ⟨c, hc, hx⟩)
    · exact Below.refl _
    · exact Below.of_parent (h.parent_eq_some_iff.2 hc) ((ih c hc _).1 hx)
  · intro hx
    rcases hx.cases_child with rfl | ⟨c, hc, hcx⟩
    · exact Or.inl rfl
    · have hc' := h.parent_eq_some_iff.1 hc
      exact Or.inr ⟨c, hc', (ih c hc' _).2 hcx⟩

theorem Sound.nodup_siblings (h : t.Sound) {p : NodeId} {ids : List NodeId} {depth : Nat}
    (hsub : ids.Sublist (t.children p))
    (hids : ∀ c ∈ ids, ((t.preorder depth c).map Prod.fst).Nodup) :
    ((ids.flatMap (t.preorder depth)).map Prod.fst).Nodup := by
  rw [List.map_flatMap, List.nodup_flatMap]
  refine ⟨hids, ?_⟩
  refine List.Pairwise.imp_of_mem ?_ ((h.nodup_children p).sublist hsub)
  intro a b ha hb hne x hxa hxb
  rw [h.mem_preorder] at hxa hxb
  exact h.disjoint (h.parent_eq_some_iff.2 (hsub.subset ha)) (h.parent_eq_some_iff.2 (hsub.subset hb))
    hne hxa hxb

theorem Sound.nodup_preorder (h : t.Sound) (depth : Nat) (id : NodeId) :
    ((t.preorder depth id).map Prod.fst).Nodup := by
  refine h.induction (P := fun id => ∀ depth, ((t.preorder depth id).map Prod.fst).Nodup) ?_ id depth
  intro id ih depth
  rw [h.preorder_eq, List.map_cons, List.nodup_cons]
  refine ⟨?_, h.nodup_siblings (List.Sublist.refl _) fun c hc => ih c hc _⟩
  intro hm
  rw [List.map_flatMap, List.mem_flatMap] at hm
  obtain ⟨c, hc, hx⟩ := hm
  rw [h.mem_preorder] at hx
  exact h.acyclic.not_below_of_parent (h.parent_eq_some_iff.2 hc) hx

theorem Sound.length_siblings_le (h : t.Sound) (p : NodeId) (depth : Nat) :
    ((t.children p).flatMap (t.preorder depth)).length ≤ t.size := by
  rw [← List.length_map (f := Prod.fst)]
  refine length_le_size_of_nodup
    (h.nodup_siblings (List.Sublist.refl _) fun c _ => h.nodup_preorder depth c) ?_
  intro x hx
  rw [List.map_flatMap, List.mem_flatMap] at hx
  obtain ⟨c, hc, hx⟩ := hx
  exact h.lt_of_below ((h.mem_preorder depth).1 hx) (h.children_lt hc).1

/-- A pre-order has an entry for each node of the branch. -/
theorem Sound.length_preorder (h : t.Sound) (depth : Nat) (id : NodeId) :
    (t.preorder depth id).length = (t.branch id).size := by
  rw [← Forest.length_branch_preorder depth, ← h.map_preorder, List.length_map]

/-- A branch has no more nodes than the tree. -/
theorem Sound.size_branch_le (h : t.Sound) {id : NodeId} (hid : id.index < t.size) :
    (t.branch id).size ≤ t.size := by
  rw [← h.length_preorder 0, ← List.length_map (f := Prod.fst)]
  exact length_le_size_of_nodup (h.nodup_preorder 0 id) fun x hx =>
    h.lt_of_below ((h.mem_preorder 0).1 hx) hid

/-! ### The iterator -/

/-- Behind the last of some siblings, climbing goes on with `after`; behind any other, with the next
one. -/
def ClimbsAs (t : Tree) (top p : NodeId) (depth : Nat) (after : Option (NodeId × Nat)) : Prop :=
  ∀ l c r, t.children p = l ++ c :: r →
    t.climb top c depth = match r with
      | [] => after
      | next :: _ => some (next, depth)

theorem Sound.climbsAs_top (h : t.Sound) (top p : NodeId) : ClimbsAs t top p 0 none := by
  intro l c r hk
  rw [climb, (h.spells.around p l c r hk).2]
  cases r <;> rfl

theorem Sound.climbsAs_of_ne (h : t.Sound) {top p : NodeId} (hne : p ≠ top) (depth : Nat) :
    ClimbsAs t top p (depth + 1) (t.climb top p depth) := by
  intro l c r hk
  rw [climb, (h.spells.around p l c r hk).2]
  cases r with
  | nil =>
      have hp : t.parent c = some p := h.parent_eq_some_iff.2 (by simp [hk])
      simp [hp, hne]
  | cons next r => simp

/-- A run through siblings lists the pre-orders below them, if each of them does so. -/
theorem listing_siblings {top p : NodeId} {depth : Nat} {after : Option (NodeId × Nat)}
    (hclimb : ClimbsAs t top p depth after)
    (hsub : ∀ c ∈ t.children p, ∀ found steps, (t.preorder depth c).length ≤ steps →
      t.listing top found steps (some (c, depth)) =
        t.listing top ((t.preorder depth c).reverse ++ found) (steps - (t.preorder depth c).length)
          (t.climb top c depth)) :
    ∀ (r l : List NodeId) (c : NodeId) (found : List (NodeId × Nat)) (steps : Nat),
      t.children p = l ++ c :: r → ((c :: r).flatMap (t.preorder depth)).length ≤ steps →
      t.listing top found steps (some (c, depth)) =
        t.listing top (((c :: r).flatMap (t.preorder depth)).reverse ++ found)
          (steps - ((c :: r).flatMap (t.preorder depth)).length) after
  | [], l, c, found, steps, hk, hle => by
      rw [List.flatMap_singleton] at hle ⊢
      rw [hsub c (by simp [hk]) found steps hle, hclimb l c [] hk]
  | next :: r, l, c, found, steps, hk, hle => by
      rw [List.flatMap_cons] at hle ⊢
      rw [List.length_append] at hle ⊢
      rw [hsub c (by simp [hk]) found steps (by omega), hclimb l c (next :: r) hk]
      have hrest := listing_siblings hclimb hsub r (l ++ [c]) next
        ((t.preorder depth c).reverse ++ found) (steps - (t.preorder depth c).length)
        (by simp [hk]) (by omega)
      simp only at hrest ⊢
      rw [hrest, List.reverse_append, List.append_assoc, Nat.sub_sub]

/-- From a node below `top` on, the iterator lists the branch at the node and then climbs. -/
theorem Sound.listing_branch (h : t.Sound) {top : NodeId} (id : NodeId) (hne : ¬t.Below id top)
    (depth : Nat) (found : List (NodeId × Nat)) (steps : Nat)
    (hle : (t.preorder depth id).length ≤ steps) :
    t.listing top found steps (some (id, depth)) =
      t.listing top ((t.preorder depth id).reverse ++ found)
        (steps - (t.preorder depth id).length) (t.climb top id depth) := by
  refine h.induction (P := fun id => ¬t.Below id top → ∀ depth found steps,
    (t.preorder depth id).length ≤ steps →
    t.listing top found steps (some (id, depth)) =
      t.listing top ((t.preorder depth id).reverse ++ found)
        (steps - (t.preorder depth id).length) (t.climb top id depth)) ?_ id hne depth found steps hle
  intro id ih hne depth found steps hle
  have hid : id ≠ top := by
    rintro rfl
    exact hne (Below.refl id)
  rw [h.preorder_eq, List.length_cons] at hle ⊢
  obtain ⟨steps, rfl⟩ : ∃ n, steps = n + 1 := ⟨steps - 1, by omega⟩
  rw [listing, successor, h.spells.first id]
  cases hk : t.children id with
  | nil => simp
  | cons c r =>
      -- The children are listed one behind the other, and behind the last one the iterator climbs.
      have hsub : ∀ c ∈ t.children id, ∀ found steps, (t.preorder (depth + 1) c).length ≤ steps →
          t.listing top found steps (some (c, depth + 1)) =
            t.listing top ((t.preorder (depth + 1) c).reverse ++ found)
              (steps - (t.preorder (depth + 1) c).length) (t.climb top c (depth + 1)) := by
        intro c hc found steps hle
        refine ih c hc (fun hb => hne ?_) (depth + 1) found steps hle
        exact Below.of_parent (h.parent_eq_some_iff.2 hc) hb
      rw [hk] at hle
      have hrun := listing_siblings (h.climbsAs_of_ne hid depth) hsub r [] c ((id, depth) :: found)
        steps hk (by omega)
      simp only [List.head?_cons] at hrun ⊢
      rw [hrun]
      simp

/-- The iterator comes to an end, and has then listed the recursive pre-order below a node. -/
theorem Sound.listing_eq (h : t.Sound) (id : NodeId) {steps : Nat}
    (hle : ((t.children id).flatMap (t.preorder 0)).length ≤ steps) :
    t.listing id [] steps ((t.firstChild id).map (·, 0)) = (t.children id).flatMap (t.preorder 0) := by
  have hend : ∀ found steps, t.listing id found steps none = found.reverse := by
    intro found steps
    cases steps <;> rfl
  rw [h.spells.first id]
  cases hk : t.children id with
  | nil => simp [hend]
  | cons c r =>
      rw [hk] at hle
      have hsub : ∀ c ∈ t.children id, ∀ found steps, (t.preorder 0 c).length ≤ steps →
          t.listing id found steps (some (c, 0)) =
            t.listing id ((t.preorder 0 c).reverse ++ found)
              (steps - (t.preorder 0 c).length) (t.climb id c 0) := by
        intro c hc found steps hle
        exact h.listing_branch c (h.acyclic.not_below_of_parent (h.parent_eq_some_iff.2 hc)) 0 found
          steps hle
      have hrun := listing_siblings (h.climbsAs_top id id) hsub r [] c [] _ hk hle
      simp only [List.head?_cons, Option.map_some] at hrun ⊢
      rw [hrun, hend]
      simp

theorem Sound.descendants_eq (h : t.Sound) (id : NodeId) :
    t.descendants id = (t.children id).flatMap (t.preorder 0) :=
  h.listing_eq id
    (Nat.le_trans (h.length_siblings_le id 0) (Nat.le_mul_of_pos_right _ (Nat.succ_pos _)))

/-- The data that the iterator comes by is the pre-order of the forest below the node. -/
theorem Sound.map_descendants (h : t.Sound) (id : NodeId) :
    (t.descendants id).map (fun e => (t.node e.1, e.2)) = Forest.preorder 0 (t.forestBelow id) := by
  rw [h.descendants_eq, h.forestBelow_eq, Forest.preorder_eq_flatMap, List.map_flatMap,
    List.flatMap_map]
  exact List.flatMap_congr fun c _ => h.map_preorder c 0

/-- What is below the root in pre-order: the data of each node, and its depth. -/
def contents (t : Tree) : List (Node × Nat) :=
  (t.descendants t.root).map fun entry => (t.node entry.1, entry.2)

theorem Sound.contents_eq (h : t.Sound) : t.contents = Forest.preorder 0 t.forest :=
  h.map_descendants t.root

end Shorthand.Tree
