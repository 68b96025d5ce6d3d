import Shorthand.Proofs.Expansion.Outcome
import Shorthand.Proofs.Tree.Builder

/-!
# Expanding twice

What an expansion leaves, cut or not, has nothing left to expand: all its nodes are concrete. The
loop goes past a concrete node without an edit (`visitSibling_concrete`), and so past a whole forest
of them (`reaches_concrete`); it pays for each node and leaves the tree alone. Hence a second
expansion changes nothing, if its limit allows as many nodes as the first one left
(`unrollLimited_idempotent`).

The budget is looked at in front of each node and never behind the last one, so a limit of just as
many nodes is enough, although the budget is then spent.
-/

namespace Shorthand.Expansion

/-! ### Budgets that last -/

namespace Budget

variable {b : Budget} {m n : Nat}

/-- `n` nodes have been placed. -/
def pay (b : Budget) (n : Nat) : Budget :=
  { b with remaining := b.remaining.map (· - n) }

/-- `n` nodes may still be placed. -/
def Covers (b : Budget) (n : Nat) : Prop :=
  ∀ left, b.remaining = some left → n ≤ left

@[simp] theorem pay_zero (b : Budget) : b.pay 0 = b := by
  obtain ⟨remaining, truncated⟩ := b
  cases remaining <;> rfl

theorem pay_pay (b : Budget) (m n : Nat) : (b.pay m).pay n = b.pay (m + n) := by
  obtain ⟨remaining, truncated⟩ := b
  cases remaining with
  | none => rfl
  | some left => simp [pay, Nat.sub_sub]

theorem Covers.mono (h : b.Covers n) (hle : m ≤ n) : b.Covers m :=
  fun left hleft => Nat.le_trans hle (h left hleft)

/-- What is left covers the rest. -/
theorem Covers.pay (h : b.Covers (m + n)) : (b.pay m).Covers n := by
  intro left hleft
  obtain ⟨before, hbefore, rfl⟩ := Option.map_eq_some_iff.1 hleft
  have hle := h before hbefore
  omega

theorem Covers.not_isExhausted (h : b.Covers n) (hpos : 0 < n) : ¬b.isExhausted := by
  intro hb
  exact absurd (h 0 (of_decide_eq_true hb)) (Nat.not_le.2 hpos)

end Budget

/-! ### Going past concrete nodes -/

variable {t : Tree}

/-- On the way past a concrete node nothing is changed. -/
theorem visitSibling_concrete {b : Budget} {id : NodeId} (hb : ¬b.isExhausted)
    (hnode : (t.node id).Concrete) (stack : List Frame) :
    visitSibling t b stack id =
      ⟨t, b.pay 1, .siblings (t.firstChild id) :: .siblings (t.next id) :: stack⟩ := by
  rw [visitSibling, if_neg hb, hnode.2]
  show (if (t.node id).isGroup = true then _ else _) = _
  rw [hnode.1, if_neg Bool.false_ne_true]
  rfl

/-- **Going past concrete siblings changes nothing,** with all that is below them. -/
theorem reaches_concrete (h : t.Sound) : ∀ (f : Forest) {p : NodeId} {l todo : List NodeId}
    {b : Budget} (stack : List Frame), f.Concrete → t.children p = l ++ todo → todo.map t.branch = f →
    b.Covers (Forest.size f) →
    Work.Reaches ⟨t, b, .siblings todo.head? :: stack⟩ (Forest.steps f)
      ⟨t, b.pay (Forest.size f), stack⟩
  | [], p, l, todo, b, stack, _, _, hf, _ => by
      obtain rfl := List.map_eq_nil_iff.1 hf
      rw [Forest.size, Budget.pay_zero, Forest.steps_nil]
      exact Work.Reaches.step t b stack (.siblings none)
  | .mk node children :: bs, p, l, todo, b, stack, hc, hk, hf, hcovers => by
      obtain ⟨id, rest, rfl, hid, hrest⟩ := List.map_eq_cons_iff.1 hf
      obtain ⟨hnode, hchildren, hbs⟩ := Forest.concrete_cons.1 hc
      rw [h.branch_eq id, Branch.mk.injEq] at hid
      have hsize : Forest.size (.mk node children :: bs) =
          1 + (Forest.size children + Forest.size bs) := by
        rw [Forest.size, Branch.size]
        omega
      rw [hsize] at hcovers ⊢
      -- The node itself, what is below it, and the siblings behind it.
      have hvisit := Work.Reaches.step t b stack (.siblings (some id))
      rw [Work.step, visitSibling_concrete (hcovers.not_isExhausted (by omega)) (hid.1 ▸ hnode),
        (h.spells.around p l id rest hk).2, h.spells.first id] at hvisit
      have hkids : t.children id = [] ++ t.children id := rfl
      have hbelow := reaches_concrete h children (.siblings rest.head? :: stack) hchildren hkids hid.2
        (hcovers.pay.mono (Nat.le_add_right _ _))
      have hbehind := reaches_concrete h bs (p := p) (l := l ++ [id]) stack hbs (by simp [hk]) hrest
        hcovers.pay.pay
      rw [← Budget.pay_pay b 1, ← Budget.pay_pay (b.pay 1)]
      refine (hvisit.trans (hbelow.trans hbehind)).mono ?_
      -- The bound allows more steps for a node than one that is merely passed takes.
      have hone : multiplicity node = 1 := by rw [multiplicity, hnode.2]
      have happend := Forest.steps_append children bs
      rw [Forest.steps_cons, hone, Nat.max_self, Nat.one_mul]
      omega

/-! ### Expanding what has been expanded -/

/-- The loop ends on a tree of concrete nodes as it found it. -/
theorem run_concrete (h : t.Sound) (hc : t.forest.Concrete) {b : Budget}
    (hcovers : b.Covers (Forest.size t.forest)) {fuel : Nat} (hfuel : Forest.steps t.forest ≤ fuel) :
    Work.run fuel ⟨t, b, [.siblings (t.firstChild t.root)]⟩ =
      ⟨t, b.pay (Forest.size t.forest), []⟩ := by
  rw [h.spells.first t.root]
  exact (reaches_concrete h t.forest (l := []) [] hc rfl h.forest_eq.symm hcovers).run_eq hfuel

theorem elementCount_concrete (h : t.Sound) (hc : t.forest.Concrete) :
    elementCount t = Forest.size t.forest := by
  rw [elementCount_eq h hc, h.contents_eq, Forest.length_preorder]

theorem unrollWithin_concrete (h : t.Sound) (hc : t.forest.Concrete) {limit : Option Nat}
    (hcovers : (Budget.ofLimit limit).Covers (Forest.size t.forest)) :
    unrollWithin limit t = (t, { nodes := Forest.size t.forest, truncated := false }) := by
  have hrun := unrolling_eq h t.root (.ofLimit limit) fun _ => run_concrete h hc hcovers
  rw [unrollWithin, unrollBelow, hrun]
  show (t, Expansion.mk (elementCount t) false) = _
  rw [elementCount_concrete h hc]

/-- Strict mode has nothing to refuse in a tree of concrete nodes. -/
theorem expand_concrete (h : t.Sound) (hc : t.forest.Concrete) (o : Options) :
    expand o t = .ok (unrollWithin o.budget.limit? t) := by
  have hnone : bareRepeat? t = none := by
    rw [bareRepeat?, List.findIdx?_eq_none_iff]
    intro entry hentry
    have hnode := concrete_of_mem_contents h hc (List.mem_map_of_mem hentry)
    rw [hasBareRepeat, hnode.2]
    rfl
  rw [expand, hnone, ite_self]

/-- A limit that is zero or large enough gives a budget that lasts. -/
theorem NodeBudget.covers_ofNat {limit n : Nat} (h : limit = 0 ∨ n ≤ limit) :
    (Budget.ofLimit (NodeBudget.ofNat limit).limit?).Covers n := by
  intro left hleft
  by_cases hpos : 0 < limit
  · obtain rfl : limit = left := by
      simpa [NodeBudget.ofNat, hpos, NodeBudget.limit?, Budget.ofLimit] using hleft
    exact h.resolve_left (Nat.ne_of_gt hpos)
  · simp [NodeBudget.ofNat, hpos, NodeBudget.limit?, Budget.ofLimit] at hleft

/-- So does a limit that is missing. -/
theorem Options.covers_budget {o : Options} {n : Nat}
    (h : ∀ limit, o.limit = some limit → limit = 0 ∨ n ≤ limit) :
    (Budget.ofLimit o.budget.limit?).Covers n := by
  rw [Options.budget]
  cases hlimit : o.limit with
  | none =>
      intro left hleft
      exact absurd hleft (by simp [NodeBudget.ofOption, NodeBudget.limit?, Budget.ofLimit])
  | some limit => exact NodeBudget.covers_ofNat (h limit hlimit)

/-- **Expansion is idempotent.** Let `t'` be what an expansion left of `t`, cut or not, strict or
not. A further one that allows as many nodes as were left, strict or not, comes to an end, finds
nothing to refuse, gives `t'` back as it is, counts the same nodes and cuts nothing. -/
theorem unrollLimited_idempotent (t t' : Tree) (e : Expansion) (hcoherent : t.Coherent)
    (hacyclic : t.Acyclic)
    (hfirst : (∃ limit, unrollLimited t limit = (t', e)) ∨ ∃ o, expand o t = .ok (t', e)) :
    (∀ again, again = 0 ∨ e.nodes ≤ again →
        unrollLimited t' again = (t', { nodes := e.nodes, truncated := false })) ∧
      (∀ o : Options, (∀ again, o.limit = some again → again = 0 ∨ e.nodes ≤ again) →
        expand o t' = .ok (t', { nodes := e.nodes, truncated := false })) ∧
      ∀ limit, (∀ again, limit = some again → e.nodes ≤ again) →
        ∃ steps, ∀ fuel, steps ≤ fuel →
          Work.run fuel ⟨t', .ofLimit limit, [.siblings (t'.firstChild t'.root)]⟩ =
            ⟨t', .ofLimit (limit.map (· - e.nodes)), []⟩ := by
  obtain ⟨limit, hlimit⟩ : ∃ limit, unrollWithin limit t = (t', e) := by
    rcases hfirst with ⟨limit, hlimit⟩ | ⟨o, ho⟩
    · exact ⟨_, hlimit⟩
    · exact ⟨_, unrollWithin_of_expand ho⟩
  have h : t.Sound := ⟨hcoherent, hacyclic⟩
  have h' : t'.Sound := by
    have hsound := (yields_unrollWithin h limit).1.sound
    rwa [hlimit] at hsound
  -- Nothing that is left asks for copies, so the nodes that were counted are all there is to visit.
  have hc : t'.forest.Concrete := by
    have hconcrete := concrete_unrollWithin h limit
    rwa [hlimit] at hconcrete
  have hnodes : e.nodes = Forest.size t'.forest := by
    have hcount : (unrollWithin limit t).2.nodes = elementCount (unrollWithin limit t).1 := rfl
    rwa [hlimit, elementCount_concrete h' hc] at hcount
  rw [hnodes]
  refine ⟨fun again hagain => ?_, fun o ho => ?_, fun limit hlimit => ?_⟩
  · refine unrollWithin_concrete h' hc (Options.covers_budget fun limit hlimit => Or.inr ?_)
    exact NodeBudget.covers_ofNat hagain limit hlimit
  · rw [expand_concrete h' hc, unrollWithin_concrete h' hc (Options.covers_budget ho)]
  · exact ⟨_, fun fuel => run_concrete (b := .ofLimit limit) h' hc hlimit⟩

/-- The first expansion is cut inside the second copy of the group and leaves the first one, of four
nodes; a second expansion spends its limit of four to the last. -/
theorem unrollLimited_idempotent_cut : ∃ t t', Tree.parse "(a*2>b)*2+c" = .ok t ∧ t.Coherent ∧
    t.Acyclic ∧ unrollLimited t 5 = (t', { nodes := 4, truncated := true }) ∧
    unrollLimited t' 4 = (t', { nodes := 4, truncated := false }) ∧
    expand { limit := some 4, strict := true } t' =
      .ok (t', { nodes := 4, truncated := false }) := by
  obtain ⟨t, hparse, hresult⟩ : ∃ t, Tree.parse "(a*2>b)*2+c" = .ok t ∧
      (unrollLimited t 5).2 = { nodes := 4, truncated := true } :=
    Tree.exists_parse_of_map (by decide +kernel)
  have h := (Tree.parse_ok hparse).1
  have hcut : unrollLimited t 5 = ((unrollLimited t 5).1, { nodes := 4, truncated := true }) := by
    rw [← hresult]
  obtain ⟨hagain, hstrict, -⟩ :=
    unrollLimited_idempotent t _ _ h.coherent h.acyclic (Or.inl ⟨5, hcut⟩)
  refine ⟨t, _, hparse, h.coherent, h.acyclic, hcut, hagain 4 (Or.inr (Nat.le_refl 4)), ?_⟩
  refine hstrict { limit := some 4, strict := true } fun again hlimit => Or.inr ?_
  exact Nat.le_of_eq (Option.some.inj hlimit)

end Shorthand.Expansion
