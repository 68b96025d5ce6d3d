import Shorthand.Expansion
import Shorthand.Proofs.Expansion.Loop

/-!
# Expansion of trees

What expanding a tree comes to, with and without a limit. The tree is read as its forest, and the
forest of the result is the one that the recursion gives (`unrollWithin_eq`).
-/

namespace Shorthand

open Expansion

/-! ### The nodes of an expansion -/

/-- What an expansion makes of the node has the property: its copies, or what its copies hold if it
is a group, and the node itself if it is left as it is. -/
structure Node.Brings (Q : Node → Prop) (node : Node) : Prop where
  copied : ∀ r k, node.pendingRepeat = some r → 1 ≤ k → k ≤ r.copies → node.isGroup = false →
    Q { node with repeats := some { count := r.count, copy := some k } }
  stamped : ∀ r k, node.pendingRepeat = some r → 1 ≤ k → k ≤ r.copies →
    ∀ inner, Q inner → Q { inner with repeats := some { count := r.count, copy := some k } }
  left : node.pendingRepeat = none → node.isGroup = false → Q node

/-- Is the node neither a group nor still to be repeated? -/
def Node.Concrete (n : Node) : Prop :=
  n.isGroup = false ∧ n.pendingRepeat = none

theorem Node.brings_concrete (node : Node) : node.Brings Node.Concrete where
  copied := fun _ _ _ _ _ hgroup => ⟨hgroup, rfl⟩
  stamped := fun _ _ _ _ _ _ hinner => ⟨hinner.1, rfl⟩
  left := fun hpending hgroup => ⟨hgroup, hpending⟩

namespace Forest

variable {Q : Node → Prop}

theorem every_map_stamp {stamp : Repeat} (hstamp : ∀ node, Q node → Q { node with repeats := some stamp })
    {f : Forest} (h : Every Q f) : Every Q (f.map (Branch.stamp stamp)) := by
  induction f with
  | nil => exact h
  | cons b f ih =>
      obtain ⟨node, children⟩ := b
      obtain ⟨hb, hf⟩ := h.cons
      rw [List.map_cons, Branch.stamp, every_cons, every_mk]
      exact ⟨⟨hstamp node hb.mk.1, hb.mk.2⟩, ih hf⟩

theorem every_copy {node : Node} {r : Repeat} {k : Nat} {inner : Forest} (hnode : node.Brings Q)
    (hr : node.pendingRepeat = some r) (hk : 1 ≤ k) (hle : k ≤ r.copies) (h : Every Q inner) :
    Every Q (copy node r inner k) := by
  by_cases hgroup : node.isGroup
  · rw [copy, if_pos hgroup]
    exact every_map_stamp (hnode.stamped r k hr hk hle) h
  · rw [copy, if_neg hgroup, every_mk]
    exact ⟨hnode.copied r k hr hk hle (Bool.eq_false_iff.2 hgroup), h⟩

mutual

theorem every_branch_expand : ∀ b : Branch, Every (Node.Brings Q) [b] → Every Q b.expand
  | .mk node children => by
      intro hb
      obtain ⟨hnode, hchildren⟩ := hb.mk
      have hinner := every_expand children hchildren
      rw [Branch.expand]
      cases hr : node.pendingRepeat with
      | some r =>
          refine every_flatMap fun k hk => every_copy hnode hr (Nat.succ_pos k) ?_ hinner
          exact List.mem_range.1 hk
      | none =>
          by_cases hgroup : node.isGroup
          · simpa [hgroup] using hinner
          · simp only [hgroup, Bool.false_eq_true, if_false]
            exact every_mk.2 ⟨hnode.left hr (Bool.eq_false_iff.2 hgroup), hinner⟩

/-- **Each node of an expansion was brought in** by a node of the forest. -/
theorem every_expand : ∀ f : Forest, Every (Node.Brings Q) f → Every Q (expand f)
  | [], _ => by simp [expand, Every]
  | b :: bs, h => by
      obtain ⟨hb, hbs⟩ := h.cons
      rw [expand, every_append]
      exact ⟨every_branch_expand b hb, every_expand bs hbs⟩

end

/-- Are all nodes concrete? -/
def Concrete (f : Forest) : Prop :=
  ∀ n ∈ nodes f, n.Concrete

theorem concrete_cons {node : Node} {children bs : Forest} :
    Concrete (.mk node children :: bs) ↔ node.Concrete ∧ Concrete children ∧ Concrete bs := by
  simp [Concrete, or_imp, forall_and]

/-- Expansion leaves no group and no pending repeat. -/
theorem concrete_expand (f : Forest) : Concrete (expand f) :=
  every_expand f fun node _ => node.brings_concrete

end Forest

/-! ### Trees -/

namespace Expansion

variable {t : Tree}

/-- The loop ends in the tree `t'`. What was below the root has been replaced, the forest and the
budget are what `result` says, and the tree has grown by what was cloned. -/
structure Yields (t t' : Tree) (b : Budget) (result : Forest × Budget) : Prop where
  ends : ∃ steps, ∀ fuel, steps ≤ fuel →
    Work.run fuel ⟨t, b, [.siblings (t.firstChild t.root)]⟩ = ⟨t', result.2, []⟩
  replaced : ∃ new, t.Replaced t' t.root [] (t.children t.root) new []
  forest : t'.forest = result.1
  size : t'.size = t.size + Forest.clonedWithin t.forest b

theorem Yields.sound {t' : Tree} {b : Budget} {result : Forest × Budget} (h : Yields t t' b result) :
    t'.Sound := by
  obtain ⟨new, hreplaced⟩ := h.replaced
  exact hreplaced.sound'

theorem yields_unrollWithin (h : t.Sound) (limit : Option Nat) :
    Yields t (unrollWithin limit t).1 (.ofLimit limit) (Forest.expandWithin t.forest (.ofLimit limit)) ∧
      (unrollWithin limit t).2.truncated =
        (Forest.expandWithin t.forest (.ofLimit limit)).2.truncated := by
  obtain ⟨t', new, hrun, hreplaced, hforest, hsize⟩ := run_eq h t.root (.ofLimit limit)
  rw [unrollWithin, unrollBelow, unrolling_eq h t.root (.ofLimit limit) hrun]
  refine ⟨⟨⟨_, hrun⟩, ⟨new, hreplaced⟩, ?_, hsize⟩, rfl⟩
  rw [Tree.forest, hreplaced.root, hforest, ← Tree.forest]

theorem contents_unrollWithin (h : t.Sound) (limit : Option Nat) :
    (unrollWithin limit t).1.contents =
      Forest.preorder 0 (Forest.expandWithin t.forest (.ofLimit limit)).1 := by
  obtain ⟨hyields, -⟩ := yields_unrollWithin h limit
  rw [hyields.sound.contents_eq, hyields.forest]

/-- Whatever the limit, no other nodes are left than those of the whole expansion. -/
theorem nodes_unrollWithin_subset (h : t.Sound) (limit : Option Nat) :
    Forest.nodes (unrollWithin limit t).1.forest ⊆ Forest.nodes (Forest.expand t.forest) := by
  obtain ⟨hyields, -⟩ := yields_unrollWithin h limit
  have hfull := Forest.unrolls_expandWithin t.forest
  rw [hyields.forest]
  cases limit with
  | none =>
      rw [hfull.unbounded]
      exact List.Subset.refl _
  | some n => exact ((hfull.prefix_full n 0).map Prod.fst).subset

/-- Whatever the limit, nothing is left to expand. -/
theorem concrete_unrollWithin (h : t.Sound) (limit : Option Nat) :
    (unrollWithin limit t).1.forest.Concrete :=
  fun node hn => Forest.concrete_expand t.forest node (nodes_unrollWithin_subset h limit hn)

theorem unrollLimited_eq (t : Tree) (limit : Nat) :
    unrollLimited t limit = unrollWithin (if limit = 0 then none else some limit) t := by
  cases limit <;> rfl

theorem concrete_of_mem_contents (h : t.Sound) (hc : t.forest.Concrete) {e : Node × Nat}
    (he : e ∈ t.contents) : e.1.Concrete := by
  rw [h.contents_eq] at he
  exact hc e.1 (List.mem_map_of_mem he)

/-- Where there are only concrete nodes, all of them count. -/
theorem elementCount_eq (h : t.Sound) (hc : t.forest.Concrete) :
    elementCount t = t.contents.length := by
  have hcount : elementCount t = t.contents.countP fun e => !e.1.isGroup := by
    rw [elementCount, Tree.contents, List.countP_map]
    rfl
  rw [hcount, List.countP_eq_length]
  intro e he
  simp [(concrete_of_mem_contents h hc he).1]

/-- **Unbounded expansion refines its recursive meaning.** The loop ends, the forest of the tree is
then the expansion of what it was, and so no group and no pending repeat is left. -/
theorem unroll_refines_expand (t : Tree) (hcoherent : t.Coherent) (hacyclic : t.Acyclic) :
    (∃ steps, ∀ fuel, steps ≤ fuel →
        Work.run fuel ⟨t, .ofLimit none, [.siblings (t.firstChild t.root)]⟩ =
          ⟨(unroll t).1, .ofLimit none, []⟩) ∧
      (unroll t).1.forest = Forest.expand t.forest ∧
      (∀ e ∈ (unroll t).1.contents, e.1.isGroup = false ∧ e.1.pendingRepeat = none) ∧
      ∀ node r children, node.pendingRepeat = some r → r.count = some 0 →
        (Branch.mk node children).expand = [] := by
  have h : t.Sound := ⟨hcoherent, hacyclic⟩
  obtain ⟨hyields, -⟩ := yields_unrollWithin h none
  rw [(Forest.unrolls_expandWithin t.forest).unbounded] at hyields
  refine ⟨hyields.ends, hyields.forest, fun e he => ?_, ?_⟩
  · refine concrete_of_mem_contents hyields.sound ?_ he
    rw [hyields.forest]
    exact Forest.concrete_expand t.forest
  · intro node r children hr hcount
    simp [Branch.expand, hr, Repeat.copies, hcount]

/-- The tree of `(a*2)*2`. -/
def twice : Tree :=
  let t := (Tree.empty.push { repeats := some { count := some 2 } }).append Tree.empty.root ⟨1⟩
  (t.push { name := some "a", repeats := some { count := some 2 } }).append ⟨1⟩ ⟨2⟩

theorem sound_twice : twice.Sound :=
  have h := (Tree.Sound.empty.newLast (p := Tree.empty.root) (by decide) _).sound
  (h.newLast (p := ⟨1⟩) (by decide) _).sound

theorem unroll_twice : twice.Coherent ∧ twice.Acyclic ∧
    (unroll twice).1.forest = Forest.expand twice.forest ∧
    (Forest.expand twice.forest).map (fun b => b.node.repeats) =
      [1, 1, 2, 2].map fun k => some { count := some 2, copy := some k } :=
  ⟨sound_twice.coherent, sound_twice.acyclic,
    (unroll_refines_expand twice sound_twice.coherent sound_twice.acyclic).2.1, rfl⟩

/-- **Bounded expansion is a monotone pre-order prefix.** -/
theorem unrollLimited_monotone (t : Tree) (hcoherent : t.Coherent) (hacyclic : t.Acyclic)
    (small large : Nat) (hpos : 1 ≤ small) (hle : small ≤ large ∨ large = 0) :
    (unrollLimited t small).1.contents <+: (unrollLimited t large).1.contents ∧
      (unrollLimited t small).1.contents.length ≤ small ∧
      (∀ e ∈ (unrollLimited t small).1.contents, e.1.isGroup = false ∧ e.1.pendingRepeat = none) ∧
      (unrollLimited t small).2.nodes = (unrollLimited t small).1.contents.length ∧
      ((unrollLimited t small).2.truncated = false →
        (unrollLimited t small).1.contents = (unroll t).1.contents) := by
  have h : t.Sound := ⟨hcoherent, hacyclic⟩
  have hfull := Forest.unrolls_expandWithin t.forest
  have hsmall : unrollLimited t small = unrollWithin (some small) t := by
    rw [unrollLimited_eq, if_neg (by omega)]
  have hconcrete := concrete_unrollWithin h (some small)
  obtain ⟨hyields, htruncated⟩ := yields_unrollWithin h (some small)
  rw [hsmall]
  refine ⟨?_, ?_, ?_, ?_, ?_⟩
  · rw [unrollLimited_eq, contents_unrollWithin h, contents_unrollWithin h]
    split
    · rw [hfull.unbounded]
      exact hfull.prefix_full small 0
    · exact hfull.mono small large (by omega) 0
  · rw [contents_unrollWithin h, Forest.length_preorder]
    exact hfull.size_le small
  · exact fun e he => concrete_of_mem_contents hyields.sound hconcrete he
  · exact elementCount_eq hyields.sound hconcrete
  · intro hcut
    rw [unroll, contents_unrollWithin h, contents_unrollWithin h, hfull.unbounded,
      hfull.eq_full (htruncated ▸ hcut)]

theorem unrollLimited_twice : twice.Coherent ∧ twice.Acyclic ∧
    (unrollLimited twice 3).1.contents <+: (unrollLimited twice 4).1.contents ∧
    (unrollLimited twice 3).2 = { nodes := 2, truncated := true } :=
  ⟨sound_twice.coherent, sound_twice.acyclic,
    (unrollLimited_monotone twice sound_twice.coherent sound_twice.acyclic 3 4 (by decide)
      (Or.inl (by decide))).1, by decide⟩

end Expansion

end Shorthand
