import Shorthand.Proofs.Expansion.Outcome
import Shorthand.Proofs.Tree.Descendants

/-!
# Growth of a tree by bounded expansion

Nothing is ever given back: a place that was taken for a copy stays taken when the copy is dropped,
or when it is a group and gives way to its children. So how large a tree becomes says how much was
cloned, and with a limit the budget bounds it (`unrollLimited_size_le`): the bound is the limit
times the square of the number of places, whatever the counts of the repeats are.

Only concrete nodes are taken off the budget. A group that is repeated although nothing in it is ever
placed is cloned as often as its count says, at no charge (`unrollLimited_size_unpaid`). These clones
come on top of the bound, and are counted by `Forest.idle`.
-/

namespace Shorthand

/-! ### Nothing is idle where every copy places a node -/

namespace Forest

/-- What is added up over the branches of a forest is zero if and only if it is zero for each of
them. -/
theorem total_eq_zero_iff {total : Forest → Nat} {part : Branch → Nat} (hnil : total [] = 0)
    (hcons : ∀ b bs, total (b :: bs) = part b + total bs) (f : Forest) :
    total f = 0 ↔ ∀ b ∈ f, part b = 0 := by
  induction f with
  | nil => simp [hnil]
  | cons b f ih => rw [hcons, Nat.add_eq_zero_iff, ih, List.forall_mem_cons]

theorem expandedSize_eq_zero_iff (f : Forest) : expandedSize f = 0 ↔ ∀ b ∈ f, b.expandedSize = 0 :=
  total_eq_zero_iff (by rw [expandedSize]) (fun _ _ => by rw [expandedSize]) f

theorem clones_eq_zero_iff (f : Forest) : clones f = 0 ↔ ∀ b ∈ f, b.clones = 0 :=
  total_eq_zero_iff (by rw [clones]) (fun _ _ => by rw [clones]) f

theorem idle_eq_zero_iff (f : Forest) : idle f = 0 ↔ ∀ b ∈ f, b.idle = 0 :=
  total_eq_zero_iff (by rw [idle]) (fun _ _ => by rw [idle]) f

end Forest

namespace Tree

variable {t : Tree}

/-- If the node is a group and is to be copied, something in it is placed with each copy. -/
def Filled (t : Tree) (id : NodeId) : Prop :=
  (t.node id).isGroup → ∀ r, (t.node id).pendingRepeat = some r → r.copies ≠ 0 →
    Forest.expandedSize (t.forestBelow id) ≠ 0

/-- Where all groups are filled, what places no node is not cloned either. -/
theorem Sound.clones_eq_zero (h : t.Sound) (id : NodeId) (hfilled : ∀ x, t.Below id x → t.Filled x)
    (hvoid : (t.branch id).expandedSize = 0) : (t.branch id).clones = 0 := by
  refine h.induction (P := fun id => (∀ x, t.Below id x → t.Filled x) →
    (t.branch id).expandedSize = 0 → (t.branch id).clones = 0) ?_ id hfilled hvoid
  intro id ih hfilled hvoid
  have hid := hfilled id (Below.refl id)
  rw [Filled, h.forestBelow_eq] at hid
  rw [h.branch_eq, Branch.expandedSize, Expansion.multiplicity] at hvoid
  rw [h.branch_eq, Branch.clones]
  cases hr : (t.node id).pendingRepeat with
  | some r =>
      simp only [hr, Nat.mul_eq_zero, Nat.add_eq_zero_iff] at hvoid ⊢
      refine Or.inl (Decidable.byContradiction fun hcopies => ?_)
      obtain ⟨hgroup, hnone⟩ := hvoid.resolve_left hcopies
      have hg : (t.node id).isGroup := by
        by_contra hg
        simp [hg] at hgroup
      exact hid hg r hr hcopies hnone
  | none =>
      simp only [hr, Nat.one_mul, Nat.add_eq_zero_iff] at hvoid
      have hkids := (Forest.expandedSize_eq_zero_iff _).1 hvoid.2
      refine (Forest.clones_eq_zero_iff _).2 fun b hb => ?_
      obtain ⟨c, hc, rfl⟩ := List.mem_map.1 hb
      have hparent := h.parent_eq_some_iff.2 hc
      exact ih c hc (fun x hx => hfilled x (Below.of_parent hparent hx)) (hkids _ hb)

theorem Sound.idle_eq_zero (h : t.Sound) (id : NodeId) (hfilled : ∀ x, t.Below id x → t.Filled x) :
    (t.branch id).idle = 0 := by
  refine h.induction (P := fun id => (∀ x, t.Below id x → t.Filled x) → (t.branch id).idle = 0) ?_ id
    hfilled
  intro id ih hfilled
  have hclones := h.clones_eq_zero id hfilled
  rw [h.branch_eq] at hclones ⊢
  rw [Branch.idle]
  split
  · next hvoid => exact hclones hvoid
  · refine (Forest.idle_eq_zero_iff _).2 fun b hb => ?_
    obtain ⟨c, hc, rfl⟩ := List.mem_map.1 hb
    exact ih c hc fun x hx => hfilled x (Below.of_parent (h.parent_eq_some_iff.2 hc) hx)

/-- The root has a place of its own. -/
theorem Sound.size_forest_lt (h : t.Sound) : Forest.size t.forest < t.size := by
  have hle := h.size_branch_le h.coherent.root
  rw [h.branch_eq, Branch.size, ← h.forest_eq] at hle
  exact hle

end Tree

namespace Expansion

/-- **The budget bounds the places taken.** What the tree grows by is at most the limit times the
square of its size and, on top of that, the limit times what is idle. Nothing is idle if something
is placed with each copy of each group that can be reached. -/
theorem unrollLimited_size_le (t : Tree) (hcoherent : t.Coherent) (hacyclic : t.Acyclic) (limit : Nat)
    (hlimit : 1 ≤ limit) :
    (unrollLimited t limit).1.size ≤
        t.size + (t.size * (t.size + 1) + Forest.idle t.forest) * limit ∧
      ((∀ e ∈ t.descendants t.root, (t.node e.1).isGroup → ∀ r, (t.node e.1).pendingRepeat = some r →
          r.copies ≠ 0 → Forest.expandedSize (t.forestBelow e.1) ≠ 0) →
        (unrollLimited t limit).1.size ≤ t.size + t.size * (t.size + 1) * limit) := by
  have h : t.Sound := ⟨hcoherent, hacyclic⟩
  have hgrown : (unrollLimited t limit).1.size ≤
      t.size + (t.size * (t.size + 1) + Forest.idle t.forest) * limit := by
    obtain ⟨hyields, -⟩ := yields_unrollWithin h (some limit)
    rw [unrollLimited_eq, if_neg (by omega), hyields.size]
    have hlt := h.size_forest_lt
    have hsquare : Forest.size t.forest * Forest.size t.forest ≤ t.size * (t.size + 1) :=
      Nat.mul_le_mul (by omega) (by omega)
    refine Nat.add_le_add_left (Nat.le_trans (Forest.clonedWithin_le t.forest hlimit) ?_) _
    exact Nat.mul_le_mul_right limit (Nat.add_le_add_right hsquare _)
  refine ⟨hgrown, fun hfilled => ?_⟩
  have hidle : Forest.idle t.forest = 0 := by
    rw [h.forest_eq, Forest.idle_eq_zero_iff]
    intro b hb
    obtain ⟨c, hc, rfl⟩ := List.mem_map.1 hb
    refine h.idle_eq_zero c fun x hx => ?_
    have hparent := h.parent_eq_some_iff.2 hc
    obtain ⟨e, he, rfl⟩ := List.mem_map.1 (h.mem_map_descendants.2
      ⟨Tree.Below.of_parent hparent hx, fun heq =>
        h.acyclic.not_below_of_parent hparent (heq ▸ hx)⟩)
    exact hfilled e he
  rwa [hidle, Nat.add_zero] at hgrown

/-- A count of `2 ^ 64 - 1` makes no difference to the bound, and what is idle in `(a+()*7)*5` is
seven copies of one node. -/
theorem unrollLimited_size_le_filled :
    (∃ t, Tree.parse "((a*2)*18446744073709551615+b)*3" = .ok t ∧ t.Coherent ∧ t.Acyclic ∧ t.size = 5 ∧
      (unrollLimited t 3).1.size ≤ 5 + 5 * 6 * 3) ∧
    ∃ t, Tree.parse "(a+()*7)*5" = .ok t ∧ t.Coherent ∧ t.Acyclic ∧ t.size = 4 ∧
      Forest.idle t.forest = 7 ∧ (unrollLimited t 3).1.size ≤ 4 + (4 * 5 + 7) * 3 := by
  obtain ⟨t, hparse, hresult⟩ : ∃ t, Tree.parse "((a*2)*18446744073709551615+b)*3" = .ok t ∧
      (t.size, (t.descendants t.root).all fun e =>
        !(t.node e.1).isGroup || Forest.expandedSize (t.forestBelow e.1) != 0) = (5, true) :=
    Tree.exists_parse_of_map (by decide +kernel)
  obtain ⟨u, huparse, huresult⟩ : ∃ u, Tree.parse "(a+()*7)*5" = .ok u ∧
      (u.size, Forest.idle u.forest) = (4, 7) :=
    Tree.exists_parse_of_map (by decide +kernel)
  obtain ⟨hsize, hall⟩ := Prod.mk.inj hresult
  obtain ⟨husize, huidle⟩ := Prod.mk.inj huresult
  have h := (Tree.parse_ok hparse).1
  have hu := (Tree.parse_ok huparse).1
  refine ⟨⟨t, hparse, h.coherent, h.acyclic, hsize, ?_⟩,
    u, huparse, hu.coherent, hu.acyclic, husize, huidle, ?_⟩
  · have hbound := (unrollLimited_size_le t h.coherent h.acyclic 3 (by decide)).2
    rw [hsize] at hbound
    refine hbound fun e he hg r _ _ => ?_
    simpa [hg] using List.all_eq_true.1 hall e he
  · have hbound := (unrollLimited_size_le u hu.coherent hu.acyclic 3 (by decide)).1
    rwa [husize, huidle] at hbound

/-- An empty group is cloned seven times within a budget of one node, which it takes nothing off. -/
theorem unrollLimited_size_unpaid : ∃ t, Tree.parse "()*7" = .ok t ∧ t.Coherent ∧ t.Acyclic ∧
    ¬(unrollLimited t 1).1.size ≤ t.size + t.size * (t.size + 1) * 1 := by
  obtain ⟨t, hparse, hresult⟩ : ∃ t, Tree.parse "()*7" = .ok t ∧
      (t.size, (unrollLimited t 1).1.size) = (2, 9) :=
    Tree.exists_parse_of_map (by decide +kernel)
  obtain ⟨hsize, hgrown⟩ := Prod.mk.inj hresult
  have h := (Tree.parse_ok hparse).1
  exact ⟨t, hparse, h.coherent, h.acyclic, by rw [hsize, hgrown]; decide⟩

end Expansion

end Shorthand
