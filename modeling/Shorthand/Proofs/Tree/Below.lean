import Mathlib.Logic.Relation
import Shorthand.Proofs.Tree.Edit
import Shorthand.Tree.Forest

/-!
# What is below a node

In a **sound** tree, coherent and acyclic, the nodes below a node form a finite branch, and the
branches of siblings share nothing. This module has the facts that let a proof speak of one branch
at a time:

* `Sound.induction`: what holds of a node as soon as it holds of its children, holds of every node;
* `Sound.branch_eq`: the branch at a node is the node with the branches at its children;
* `Sound.branch_congr`: a branch depends only on the nodes below its head;
* `Sound.disjoint`: no node is below two siblings.

The levels that `branchTo` and `preorderTo` count down are no concern above this module: there is a
height that goes down strictly from a node to its children and never exceeds the number of nodes.
-/

namespace Shorthand.Tree

variable {t t' : Tree}

/-- Do the links agree, and is no node above itself? -/
structure Sound (t : Tree) : Prop where
  coherent : t.Coherent
  acyclic : t.Acyclic

/-- `x` is `a` or has `a` above it. -/
def Below (t : Tree) (a x : NodeId) : Prop :=
  Relation.ReflTransGen (fun p c => t.parent c = some p) a x

namespace Below

theorem refl (a : NodeId) : t.Below a a := Relation.ReflTransGen.refl

theorem child {a p c : NodeId} (h : t.Below a p) (hc : t.parent c = some p) : t.Below a c :=
  Relation.ReflTransGen.tail h hc

theorem of_parent {p c x : NodeId} (hc : t.parent c = some p) (h : t.Below c x) : t.Below p x :=
  Relation.ReflTransGen.head hc h

/-- What is below a node is the node, or its parent is below too. -/
theorem cases {a x : NodeId} (h : t.Below a x) :
    x = a ∨ ∃ p, t.parent x = some p ∧ t.Below a p := by
  rcases Relation.ReflTransGen.cases_tail h with hx | ⟨p, hap, hp⟩
  · exact Or.inl hx
  · exact Or.inr ⟨p, hp, hap⟩

/-- What is below a node is the node, or it is below one of the children. -/
theorem cases_child {a x : NodeId} (h : t.Below a x) :
    x = a ∨ ∃ c, t.parent c = some a ∧ t.Below c x := by
  rcases Relation.ReflTransGen.cases_head h with hx | ⟨c, hc, hcx⟩
  · exact Or.inl hx.symm
  · exact Or.inr ⟨c, hc, hcx⟩

/-- Of two nodes above a third one, one is above the other: a node has one parent. -/
theorem total {a b x : NodeId} (ha : t.Below a x) (hb : t.Below b x) :
    t.Below a b ∨ t.Below b a := by
  induction ha with
  | refl => exact Or.inr hb
  | tail _ hp ih =>
      rcases hb.cases with rfl | ⟨q, hq, hbq⟩
      · exact Or.inl (Relation.ReflTransGen.tail ‹_› hp)
      · rw [hp] at hq
        obtain rfl := Option.some.inj hq
        exact ih hbq

/-- Parents alone say what is below. -/
theorem mono {a x : NodeId} (h : t.Below a x)
    (hp : ∀ c p, t.Below a p → t.parent c = some p → t'.parent c = some p) : t'.Below a x := by
  induction h with
  | refl => exact refl a
  | tail hab hbc ih => exact ih.child (hp _ _ hab hbc)

end Below

theorem Sound.spells (h : t.Sound) : t.Spells t.children := h.coherent.spells

theorem Sound.parent_eq_some_iff (h : t.Sound) {p c : NodeId} :
    t.parent c = some p ↔ c ∈ t.children p :=
  h.spells.parent_iff c p

theorem Sound.children_lt (h : t.Sound) {p c : NodeId} (hc : c ∈ t.children p) :
    c.index < t.size ∧ p.index < t.size :=
  h.spells.inside p c hc

/-- What is below a node of the tree is in the tree. -/
theorem Sound.lt_of_below (h : t.Sound) {a x : NodeId} (hb : t.Below a x) (ha : a.index < t.size) :
    x.index < t.size := by
  rcases hb.cases with rfl | ⟨p, hp, -⟩
  · exact ha
  · exact (h.children_lt (h.parent_eq_some_iff.1 hp)).1

/-! ### Ranks -/

theorem Below.rank_le {rank : NodeId → Nat}
    (hr : ∀ id parent, t.parent id = some parent → rank parent < rank id) {a x : NodeId}
    (h : t.Below a x) : rank a ≤ rank x := by
  induction h with
  | refl => exact Nat.le_refl _
  | tail _ hp ih => exact Nat.le_trans ih (Nat.le_of_lt (hr _ _ hp))

/-- No parent is below its child. -/
theorem Acyclic.not_below_of_parent (h : t.Acyclic) {p c : NodeId} (hc : t.parent c = some p) :
    ¬t.Below c p := by
  obtain ⟨rank, hr⟩ := h
  intro hb
  have hle := hb.rank_le hr
  have hlt := hr c p hc
  omega

theorem Acyclic.ne_of_parent (h : t.Acyclic) {p c : NodeId} (hc : t.parent c = some p) : p ≠ c := by
  rintro rfl
  exact h.not_below_of_parent hc (Below.refl p)

/-- No node is below two siblings. -/
theorem Sound.disjoint (h : t.Sound) {p a b x : NodeId} (ha : t.parent a = some p)
    (hb : t.parent b = some p) (hne : a ≠ b) (hax : t.Below a x) : ¬t.Below b x := by
  intro hbx
  -- The lower one of two siblings would have their parent below itself.
  have key : ∀ {a b : NodeId}, t.parent a = some p → t.parent b = some p → a ≠ b →
      ¬t.Below a b := by
    intro a b ha hb hne hab
    rcases hab.cases with rfl | ⟨q, hq, haq⟩
    · exact hne rfl
    · rw [hb] at hq
      obtain rfl := Option.some.inj hq
      exact h.acyclic.not_below_of_parent ha haq
  rcases hax.total hbx with hab | hba
  · exact key ha hb hne hab
  · exact key hb ha (Ne.symm hne) hba

/-- Moving a node keeps the tree acyclic, unless it is moved to a node below itself. -/
theorem Acyclic.of_move (h : t.Acyclic) {id p : NodeId}
    (hp : ∀ c, t'.parent c = if c = id then some p else t.parent c) (hb : ¬t.Below id p) :
    t'.Acyclic := by
  classical
  obtain ⟨rank, hr⟩ := h
  -- What moves is lifted above the rank of the new parent.
  refine ⟨fun x => if t.Below id x then rank p + 1 + rank x else rank x, ?_⟩
  intro c q hc
  rw [hp] at hc
  by_cases hid : c = id
  · subst hid
    rw [if_pos rfl] at hc
    obtain rfl := Option.some.inj hc
    simp only [hb, if_false, Below.refl c, if_true]
    omega
  · rw [if_neg hid] at hc
    have hlt := hr c q hc
    have hiff : t.Below id c ↔ t.Below id q := by
      constructor
      · intro hbc
        rcases hbc.cases with he | ⟨q', hq', hbq'⟩
        · exact absurd he hid
        · rw [hc] at hq'
          exact Option.some.inj hq' ▸ hbq'
      · exact fun hbq => hbq.child hc
    simp only [hiff]
    split <;> omega

/-! ### Heights -/

/-- Some height goes down strictly from every node to its children, and is at most the number of
nodes. -/
theorem Sound.exists_height (h : t.Sound) :
    ∃ height : NodeId → Nat, (∀ p, ∀ c ∈ t.children p, height c < height p) ∧
      ∀ x, height x ≤ t.size := by
  obtain ⟨rank, hr⟩ := h.acyclic
  refine ⟨fun x => (List.range t.size).countP fun i => rank x < rank ⟨i⟩, ?_, ?_⟩
  · intro p c hc
    have hlt := hr c p (h.parent_eq_some_iff.2 hc)
    have hin : c.index ∈ List.range t.size := List.mem_range.2 (h.children_lt hc).1
    -- The child itself counts for the parent, but not for the child.
    obtain ⟨l, r, hcut⟩ := List.append_of_mem hin
    have hmono : ∀ is : List Nat, is.countP (fun i => rank c < rank ⟨i⟩) ≤
        is.countP (fun i => rank p < rank ⟨i⟩) := by
      intro is
      refine List.countP_mono_left fun i _ hi => ?_
      simp only [decide_eq_true_eq] at hi ⊢
      omega
    have h1 := hmono l
    have h2 := hmono r
    have hc' : (⟨c.index⟩ : NodeId) = c := rfl
    simp only [hcut, List.countP_append, List.countP_cons, hc', hlt, Nat.lt_irrefl, decide_true,
      decide_false, if_true]
    simp
    omega
  · intro x
    exact Nat.le_trans List.countP_le_length (by simp)

/-- What holds of a node as soon as it holds of its children, holds of every node. -/
theorem Sound.induction (h : t.Sound) {P : NodeId → Prop}
    (step : ∀ id, (∀ c ∈ t.children id, P c) → P id) (id : NodeId) : P id := by
  obtain ⟨height, hh, -⟩ := h.exists_height
  have key : ∀ n id, height id < n → P id := by
    intro n
    induction n with
    | zero => intro id hlt; exact absurd hlt (Nat.not_lt_zero _)
    | succ n ih =>
        intro id hlt
        refine step id fun c hc => ih c ?_
        have := hh id c hc
        omega
  exact key (height id + 1) id (Nat.lt_succ_self _)

/-- Enough levels are enough: more of them change neither the branch nor its listing. -/
theorem levels_irrelevant {height : NodeId → Nat}
    (hh : ∀ p, ∀ c ∈ t.children p, height c < height p) :
    ∀ (m n : Nat) (id : NodeId), height id ≤ m → height id ≤ n →
      t.branchTo m id = t.branchTo n id ∧
        ∀ depth, t.preorderTo m depth id = t.preorderTo n depth id := by
  -- Without children, every number of levels is enough.
  have leaf : ∀ n id, height id = 0 → t.branchTo n id = .mk (t.node id) [] ∧
      ∀ depth, t.preorderTo n depth id = [(id, depth)] := by
    intro n id h0
    have hnil : t.children id = [] := by
      refine List.eq_nil_iff_forall_not_mem.2 fun c hc => ?_
      have := hh id c hc
      omega
    cases n <;> simp [branchTo, preorderTo, hnil]
  intro m
  induction m with
  | zero =>
      intro n id hm _
      have h0 : height id = 0 := by omega
      have h1 := leaf 0 id h0
      have h2 := leaf n id h0
      exact ⟨h1.1.trans h2.1.symm, fun depth => (h1.2 depth).trans (h2.2 depth).symm⟩
  | succ m ih =>
      intro n id hm hn
      cases n with
      | zero =>
          have h0 : height id = 0 := by omega
          have h1 := leaf (m + 1) id h0
          have h2 := leaf 0 id h0
          exact ⟨h1.1.trans h2.1.symm, fun depth => (h1.2 depth).trans (h2.2 depth).symm⟩
      | succ n =>
          have hc : ∀ c ∈ t.children id, t.branchTo m c = t.branchTo n c ∧
              ∀ depth, t.preorderTo m depth c = t.preorderTo n depth c := by
            intro c hc
            have := hh id c hc
            exact ih n c (by omega) (by omega)
          simp only [branchTo, preorderTo]
          refine ⟨congrArg _ (List.map_congr_left fun c hm => (hc c hm).1), fun depth => ?_⟩
          exact congrArg _ (List.flatMap_congr fun c hm => (hc c hm).2 (depth + 1))

/-! ### Branches -/

/-- The branch at a node is the node with the branches at its children. -/
theorem Sound.branch_eq (h : t.Sound) (id : NodeId) :
    t.branch id = .mk (t.node id) ((t.children id).map t.branch) := by
  obtain ⟨height, hh, hle⟩ := h.exists_height
  have hlevels := levels_irrelevant hh
  calc t.branch id = t.branchTo (t.size + 1) id :=
        (hlevels t.size (t.size + 1) id (hle id) (Nat.le_succ_of_le (hle id))).1
    _ = .mk (t.node id) ((t.children id).map t.branch) := rfl

theorem Sound.preorder_eq (h : t.Sound) (depth : Nat) (id : NodeId) :
    t.preorder depth id =
      (id, depth) :: (t.children id).flatMap (t.preorder (depth + 1)) := by
  obtain ⟨height, hh, hle⟩ := h.exists_height
  have hlevels := levels_irrelevant hh
  calc t.preorder depth id = t.preorderTo (t.size + 1) depth id :=
        (hlevels t.size (t.size + 1) id (hle id) (Nat.le_succ_of_le (hle id))).2 depth
    _ = (id, depth) :: (t.children id).flatMap (t.preorder (depth + 1)) := rfl

theorem Sound.forestBelow_eq (h : t.Sound) (id : NodeId) :
    t.forestBelow id = (t.children id).map t.branch := by
  rw [forestBelow, h.branch_eq id, Branch.children]

theorem Sound.forest_eq (h : t.Sound) : t.forest = (t.children t.root).map t.branch :=
  h.forestBelow_eq t.root

/-- A branch depends only on the nodes below its head. -/
theorem Sound.branch_congr (h : t.Sound) (h' : t'.Sound) {a : NodeId}
    (hframe : ∀ x, t.Below a x → t'.node x = t.node x ∧ t'.children x = t.children x) :
    t'.branch a = t.branch a := by
  refine h.induction (P := fun x => t.Below a x → t'.branch x = t.branch x) ?_ a (Below.refl a)
  intro x ih hx
  obtain ⟨hnode, hkids⟩ := hframe x hx
  rw [h.branch_eq x, h'.branch_eq x, hnode, hkids]
  refine congrArg _ (List.map_congr_left fun c hc => ih c hc ?_)
  exact hx.child (h.parent_eq_some_iff.2 hc)

/-- So does what is below. -/
theorem Sound.below_congr (h : t.Sound) (h' : t'.Sound) {a : NodeId}
    (hframe : ∀ x, t.Below a x → t'.children x = t.children x) (x : NodeId) :
    t'.Below a x ↔ t.Below a x := by
  constructor
  · intro hx
    induction hx with
    | refl => exact Below.refl a
    | tail _ hp ih =>
        refine ih.child (h.parent_eq_some_iff.2 ?_)
        rw [← hframe _ ih]
        exact h'.parent_eq_some_iff.1 hp
  · intro hx
    refine hx.mono fun c p hp hc => h'.parent_eq_some_iff.2 ?_
    rw [hframe p hp]
    exact h.parent_eq_some_iff.1 hc

end Shorthand.Tree
