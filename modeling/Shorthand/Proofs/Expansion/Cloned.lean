import Shorthand.Proofs.Expansion.Within

/-!
# Nodes cloned within a budget

Each copy is cloned with all below it before the budget is asked for what is below, and it stays in
the tree's list of places whether it is kept or dropped. `Forest.clonedWithin` counts these nodes
along the recursion of `Forest.expandWithin`.

The budget pays for them: `Charged next cloned rate base` says that what is cloned comes to at most
`rate` for each node that was taken off the budget, and `base` beyond that. A copy that is sure to
take something off the budget has all its costs covered by the rate. What places no node takes
nothing off, and can only be covered by the base; how much that is, is `Forest.idle`. The rate and
the base together are at most the square of the number of nodes, and what is idle
(`Forest.exists_charged`).
-/

namespace Shorthand

open Expansion (Budget)

/-! ### Counting clones -/

/-- The nodes cloned for one copy of a node, when the copy has `size` nodes and `below` are cloned
below it. -/
def Forest.copyCloned (node : Node) (size : Nat) (below : Budget → Nat) (b : Budget) : Nat :=
  if b.isExhausted then 0 else size + below (if node.isGroup then b else b.spend)

/-- The nodes cloned for the copies that are still to be made, `left` of them after `made`. -/
def Forest.copiesCloned (node : Node) (r : Repeat) (inner : Budget → Forest × Budget) (size : Nat)
    (below : Budget → Nat) : (left made : Nat) → Budget → Nat
  | 0, _, _ => 0
  | left + 1, made, b =>
    Forest.copyCloned node size below b +
      copiesCloned node r inner size below left (made + 1) (Forest.copyWithin node r inner (made + 1) b).2

mutual

/-- The nodes cloned while a branch is unrolled within a budget. -/
def Branch.clonedWithin : Branch → Budget → Nat
  | .mk node children, b =>
    if b.isExhausted then 0
    else
      match node.pendingRepeat with
      | some r =>
        Forest.copiesCloned node r (Forest.expandWithin children) (Forest.size children + 1)
          (Forest.clonedWithin children) r.copies 0 b
      | none => Forest.clonedWithin children (if node.isGroup then b else b.spend)

/-- The nodes cloned while a forest is unrolled within a budget. -/
def Forest.clonedWithin : List Branch → Budget → Nat
  | [], _ => 0
  | branch :: rest, b => branch.clonedWithin b + Forest.clonedWithin rest (branch.expandWithin b).2

end

mutual

/-- The nodes cloned while a branch is unrolled without a limit. -/
def Branch.clones : Branch → Nat
  | .mk node children =>
    match node.pendingRepeat with
    | some r => r.copies * (Forest.size children + 1 + Forest.clones children)
    | none => Forest.clones children

/-- The nodes cloned while a forest is unrolled without a limit. -/
def Forest.clones : List Branch → Nat
  | [] => 0
  | b :: bs => b.clones + Forest.clones bs

end

mutual

/-- The nodes cloned in those parts of a branch that place no node. -/
def Branch.idle : Branch → Nat
  | .mk node children =>
    if (Branch.mk node children).expandedSize = 0 then (Branch.mk node children).clones
    else Forest.idle children

/-- The nodes cloned in those parts of a forest that place no node. -/
def Forest.idle : List Branch → Nat
  | [] => 0
  | b :: bs => b.idle + Forest.idle bs

end

namespace Forest

theorem clonedWithin_append (f g : Forest) (b : Budget) :
    clonedWithin (f ++ g) b = clonedWithin f b + clonedWithin g (expandWithin f b).2 := by
  induction f generalizing b with
  | nil => simp [clonedWithin, expandWithin]
  | cons branch f ih => simp [clonedWithin, expandWithin, ih, Nat.add_assoc]

/-- With a spent budget nothing is cloned. -/
theorem copiesCloned_of_isExhausted {node : Node} {r : Repeat} {inner : Budget → Forest × Budget}
    {size : Nat} {below : Budget → Nat} {b : Budget} (hb : b.isExhausted) (left made : Nat) :
    copiesCloned node r inner size below left made b = 0 := by
  induction left generalizing b made with
  | zero => rfl
  | succ left ih =>
      rw [copiesCloned, copyCloned, if_pos hb, copyWithin, if_pos hb, Nat.zero_add]
      exact ih (b := b.truncate) hb (made + 1)

theorem copiesCloned_le {node : Node} {r : Repeat} {inner : Budget → Forest × Budget} {size bound : Nat}
    {below : Budget → Nat} (hbelow : ∀ b, below b ≤ bound) (left made : Nat) (b : Budget) :
    copiesCloned node r inner size below left made b ≤ left * (size + bound) := by
  induction left generalizing b made with
  | zero => simp [copiesCloned]
  | succ left ih =>
      have hfirst : copyCloned node size below b ≤ size + bound := by
        rw [copyCloned]
        split
        · exact Nat.zero_le _
        · exact Nat.add_le_add_left (hbelow _) _
      have hothers := ih (made + 1) (copyWithin node r inner (made + 1) b).2
      rw [copiesCloned, Nat.succ_mul]
      omega

mutual

theorem clonedWithin_branch_le (budget : Budget) : ∀ b : Branch, b.clonedWithin budget ≤ b.clones
  | .mk node children => by
      have h := fun budget => clonedWithin_le_clones budget children
      rw [Branch.clonedWithin, Branch.clones]
      split
      · exact Nat.zero_le _
      · cases node.pendingRepeat with
        | some r => exact copiesCloned_le h _ _ _
        | none => exact h _

/-- No budget makes more clones than none. -/
theorem clonedWithin_le_clones (budget : Budget) : ∀ f : Forest, clonedWithin f budget ≤ clones f
  | [] => by simp [clonedWithin]
  | b :: bs => by
      rw [clonedWithin, clones]
      exact Nat.add_le_add (clonedWithin_branch_le budget b) (clonedWithin_le_clones _ bs)

end

/-! ### Paying for clones -/

/-- The budget of a run with a limit, when `n` nodes may still be placed. -/
def Holds (b : Budget) (n : Nat) : Prop :=
  b = .ofLimit (some n) ∨ n = 0 ∧ b = .spent

theorem holds_ofLimit (n : Nat) : Holds (.ofLimit (some n)) n := Or.inl rfl

theorem Holds.isExhausted {b : Budget} (h : Holds b 0) : b.isExhausted ∧ Holds b.truncate 0 := by
  rcases h with rfl | ⟨-, rfl⟩
  · exact ⟨rfl, Or.inr ⟨rfl, rfl⟩⟩
  · exact ⟨rfl, Or.inr ⟨rfl, rfl⟩⟩

theorem Holds.succ {b : Budget} {n : Nat} (h : Holds b (n + 1)) : b = .ofLimit (some (n + 1)) := by
  rcases h with rfl | ⟨hn, -⟩
  · rfl
  · exact absurd hn (Nat.succ_ne_zero n)

theorem Holds.spend {b : Budget} {n : Nat} (h : Holds b n) : Holds b.spend (n - 1) := by
  rcases h with rfl | ⟨rfl, rfl⟩
  · exact Or.inl rfl
  · exact Or.inr ⟨rfl, rfl⟩

theorem Holds.unique {b : Budget} {n m : Nat} (h : Holds b n) (h' : Holds b m) : n = m := by
  rcases h with rfl | ⟨rfl, rfl⟩
  · simpa [Holds, Budget.ofLimit, Budget.spent] using h'
  · simpa [Holds, Budget.ofLimit, Budget.spent, eq_comm] using h'

/-- What a run with a limit clones is at most `rate` for each node that it takes off the budget, and
`base` beyond that. -/
def Charged (next : Budget → Budget) (cloned : Budget → Nat) (rate base : Nat) : Prop :=
  ∀ b n, Holds b n → ∃ left used, n = left + used ∧ Holds (next b) left ∧
    cloned b ≤ rate * used + base

/-- A run with a limit takes something off the budget if it can. -/
def Drains (next : Budget → Budget) : Prop :=
  ∀ b n, Holds b (n + 1) → ∃ left, left ≤ n ∧ Holds (next b) left

theorem Unrolls.holds {run : Budget → Forest × Budget} {full : Forest} {need : Nat}
    (h : Unrolls run full need) {b : Budget} {n : Nat} (hb : Holds b n) :
    ∃ left, left ≤ n - size full ∧ Holds (run b).2 left := by
  rcases hb with rfl | ⟨rfl, rfl⟩
  · by_cases hn : n < need
    · exact ⟨0, Nat.zero_le _, Or.inr ⟨rfl, h.cut n hn⟩⟩
    · rw [h.fits n (Nat.not_lt.1 hn)]
      exact ⟨_, Nat.le_refl _, holds_ofLimit _⟩
  · rw [h.spent]
    exact ⟨0, Nat.zero_le _, Or.inr ⟨rfl, rfl⟩⟩

theorem Unrolls.drains {run : Budget → Forest × Budget} {full : Forest} {need : Nat}
    (h : Unrolls run full need) (hfull : size full ≠ 0) : Drains fun b => (run b).2 := by
  intro b n hb
  obtain ⟨left, hle, hleft⟩ := h.holds hb
  exact ⟨left, by omega, hleft⟩

/-- Whatever a run is, the base can cover all that it may clone. -/
theorem Unrolls.charged {run : Budget → Forest × Budget} {full : Forest} {need : Nat}
    (h : Unrolls run full need) {cloned : Budget → Nat} {base : Nat} (hcloned : ∀ b, cloned b ≤ base) :
    Charged (fun b => (run b).2) cloned 0 base := by
  intro b n hb
  obtain ⟨left, hle, hleft⟩ := h.holds hb
  exact ⟨left, n - left, by omega, hleft, by simpa using hcloned b⟩

theorem snd_copyWithin (node : Node) (r : Repeat) (inner : Budget → Forest × Budget) (k : Nat)
    (b : Budget) : (copyWithin node r inner k b).2 =
      if b.isExhausted then b.truncate else (inner (if node.isGroup then b else b.spend)).2 := by
  rw [copyWithin]
  split <;> rfl

namespace Charged

variable {next next' : Budget → Budget} {cloned cloned' : Budget → Nat} {rate rate' base base' : Nat}

theorem nothing : Charged id (fun _ => 0) 0 0 :=
  fun _ n hb => ⟨n, 0, rfl, hb, Nat.zero_le _⟩

theorem congr (h : Charged next cloned rate base) (hnext : ∀ b, next' b = next b)
    (hcloned : ∀ b, cloned' b = cloned b) : Charged next' cloned' rate base :=
  funext hnext ▸ funext hcloned ▸ h

theorem mono (h : Charged next cloned rate base) (hrate : rate ≤ rate') :
    Charged next cloned rate' base := by
  intro b n hb
  obtain ⟨left, used, hn, hleft, hcost⟩ := h b n hb
  have hmul := Nat.mul_le_mul_right used hrate
  exact ⟨left, used, hn, hleft, by omega⟩

/-- One run after the other. -/
theorem andThen (h : Charged next cloned rate base) (h' : Charged next' cloned' rate base') :
    Charged (fun b => next' (next b)) (fun b => cloned b + cloned' (next b)) rate (base + base') := by
  intro b n hb
  obtain ⟨left, used, hn, hleft, hcost⟩ := h b n hb
  obtain ⟨left', used', hn', hleft', hcost'⟩ := h' _ _ hleft
  have hboth := Nat.add_le_add hcost hcost'
  refine ⟨left', used + used', by omega, hleft', Nat.le_trans hboth ?_⟩
  rw [Nat.mul_add]
  omega

/-- A run that looks at the budget first. What it would do with a spent one does not matter. -/
theorem of_succ (h : ∀ n, ∃ left used, n + 1 = left + used ∧
      Holds (next (.ofLimit (some (n + 1)))) left ∧
      cloned (.ofLimit (some (n + 1))) ≤ rate * used + base) :
    Charged (fun b => if b.isExhausted then b.truncate else next b)
      (fun b => if b.isExhausted then 0 else cloned b) rate base := by
  intro b n hb
  cases n with
  | zero =>
      obtain ⟨hexhausted, htruncate⟩ := hb.isExhausted
      exact ⟨0, 0, rfl, by simpa [hexhausted] using htruncate, by simp [hexhausted]⟩
  | succ n =>
      obtain rfl := hb.succ
      simpa using h n

theorem guarded (h : Charged next cloned rate base) :
    Charged (fun b => if b.isExhausted then b.truncate else next b)
      (fun b => if b.isExhausted then 0 else cloned b) rate base :=
  of_succ fun n => h _ _ (holds_ofLimit (n + 1))

/-- Going on below a node, which is taken off the budget unless it is a group. -/
theorem below (h : Charged next cloned rate base) (node : Node) :
    Charged (fun b => next (if node.isGroup then b else b.spend))
      (fun b => cloned (if node.isGroup then b else b.spend)) rate base := by
  intro b n hb
  by_cases hg : node.isGroup
  · simpa only [hg, if_true] using h b n hb
  · simp only [hg, if_false, Bool.false_eq_true]
    obtain ⟨left, used, hn, hleft, hcost⟩ := h b.spend (n - 1) hb.spend
    have hmul := Nat.mul_le_mul_left rate (show used ≤ n - left by omega)
    exact ⟨left, n - left, by omega, hleft, by omega⟩

/-- Below a node that is not a group, something has been taken off the budget already. -/
theorem drains_below (h : Charged next cloned rate base) (node : Node)
    (hgroup : node.isGroup → Drains next) :
    Drains fun b => next (if node.isGroup then b else b.spend) := by
  intro b n hb
  by_cases hg : node.isGroup
  · simpa only [hg, if_true] using hgroup hg b n hb
  · simp only [hg, if_false, Bool.false_eq_true]
    obtain ⟨left, used, hn, hleft, -⟩ := h b.spend n hb.spend
    exact ⟨left, by omega, hleft⟩

/-- What takes something off the budget has all its costs covered by the rate. -/
theorem covered (h : Charged next cloned rate base) (hdrains : Drains next) (size : Nat) :
    Charged (fun b => if b.isExhausted then b.truncate else next b)
      (fun b => if b.isExhausted then 0 else size + cloned b) (size + rate + base) 0 := by
  refine of_succ fun n => ?_
  obtain ⟨left, used, hn, hleft, hcost⟩ := h _ _ (holds_ofLimit (n + 1))
  obtain ⟨left', hle, hleft'⟩ := hdrains _ n (holds_ofLimit (n + 1))
  obtain rfl := hleft.unique hleft'
  -- One of the nodes taken off pays for the copy and the base, the others for the rest.
  obtain ⟨more, rfl⟩ : ∃ more, used = more + 1 := ⟨used - 1, by omega⟩
  refine ⟨left, more + 1, hn, hleft, ?_⟩
  have hmul := Nat.mul_le_mul_right more (show rate ≤ size + rate + base by omega)
  rw [Nat.mul_succ] at hcost ⊢
  omega

/-- Copies that are covered by the rate one by one are covered by it together. -/
theorem copies {node : Node} {r : Repeat} {inner : Budget → Forest × Budget} {size : Nat}
    {below : Budget → Nat}
    (h : ∀ k, Charged (fun b => (copyWithin node r inner k b).2) (copyCloned node size below) rate 0)
    (left made : Nat) :
    Charged (fun b => (copiesWithin node r inner left made b).2)
      (copiesCloned node r inner size below left made) rate 0 := by
  induction left generalizing made with
  | zero => exact nothing.mono (Nat.zero_le _)
  | succ left ih => exact (h (made + 1)).andThen (ih (made + 1))

end Charged

/-! ### Forests -/

mutual

theorem exists_charged_branch : ∀ branch : Branch, ∃ rate base,
    Charged (fun b => (branch.expandWithin b).2) branch.clonedWithin rate base ∧
      rate + base ≤ branch.size * branch.size + branch.idle
  | .mk node children => by
      obtain ⟨rate, base, hinner, hle⟩ := exists_charged children
      have hunrolls := unrolls_expandWithin children
      have hsquare : (Branch.mk node children).size * (Branch.mk node children).size =
          size children * size children + 2 * size children + 1 := by
        rw [Branch.size, Nat.mul_succ, Nat.succ_mul]
        omega
      by_cases hvoid : (Branch.mk node children).expandedSize = 0
      · refine ⟨0, (Branch.mk node children).clones,
          (unrolls_branch _).charged fun b => clonedWithin_branch_le b _, ?_⟩
        rw [Branch.idle, if_pos hvoid]
        omega
      rw [Branch.idle, if_neg hvoid, hsquare]
      -- The branch places a node, so what is below it is paid for, copy by copy.
      have hfilled : node.isGroup → size (expand children) ≠ 0 := fun hg hnone => by
        rw [size_expand] at hnone
        exact hvoid (by rw [Branch.expandedSize, if_pos hg, hnone, Nat.mul_zero])
      have hdrains := hinner.drains_below node fun hg => hunrolls.drains (hfilled hg)
      cases hr : node.pendingRepeat with
      | some r =>
          have hcopy : ∀ k, Charged (fun b => (copyWithin node r (expandWithin children) k b).2)
              (copyCloned node (size children + 1) (clonedWithin children))
              (size children + 1 + rate + base) 0 := fun k =>
            ((hinner.below node).covered hdrains (size children + 1)).congr
              (snd_copyWithin node r (expandWithin children) k) fun _ => rfl
          refine ⟨size children + 1 + rate + base, 0,
            (Charged.copies hcopy r.copies 0).guarded.congr (fun b => ?_) (fun b => ?_), by omega⟩
          · rw [Branch.expandWithin, hr]
            split <;> rfl
          · rw [Branch.clonedWithin, hr]
      | none =>
          refine ⟨0 + rate + base, 0,
            ((hinner.below node).covered hdrains 0).congr (fun b => ?_) (fun b => ?_), by omega⟩
          · rw [Branch.expandWithin, hr]
            split
            · rfl
            · by_cases hg : node.isGroup <;> simp [hg]
          · rw [Branch.clonedWithin, hr, Nat.zero_add]

/-- A rate and a base for a forest. The rate of siblings is the larger one, and their bases add up. -/
theorem exists_charged : ∀ f : Forest, ∃ rate base,
    Charged (fun b => (expandWithin f b).2) (clonedWithin f) rate base ∧
      rate + base ≤ size f * size f + idle f
  | [] => ⟨0, 0, Charged.nothing, Nat.zero_le _⟩
  | b :: bs => by
      obtain ⟨rate, base, hfirst, hle⟩ := exists_charged_branch b
      obtain ⟨rate', base', hothers, hle'⟩ := exists_charged bs
      refine ⟨max rate rate', base + base', (hfirst.mono (Nat.le_max_left ..)).andThen
        (hothers.mono (Nat.le_max_right ..)), ?_⟩
      rw [size, idle, Nat.add_mul, Nat.mul_add, Nat.mul_add]
      omega

end

/-- **The budget pays for the clones**, what is idle apart. -/
theorem clonedWithin_le (f : Forest) {limit : Nat} (hlimit : 1 ≤ limit) :
    clonedWithin f (.ofLimit (some limit)) ≤ (size f * size f + idle f) * limit := by
  obtain ⟨rate, base, hcharged, hle⟩ := exists_charged f
  obtain ⟨left, used, hlimit', -, hcost⟩ := hcharged _ limit (holds_ofLimit limit)
  calc clonedWithin f (.ofLimit (some limit))
      ≤ rate * used + base := hcost
    _ ≤ rate * limit + base * limit :=
        Nat.add_le_add (Nat.mul_le_mul_left rate (by omega)) (Nat.le_mul_of_pos_right base hlimit)
    _ = (rate + base) * limit := (Nat.add_mul ..).symm
    _ ≤ (size f * size f + idle f) * limit := Nat.mul_le_mul_right limit hle

end Forest

end Shorthand
