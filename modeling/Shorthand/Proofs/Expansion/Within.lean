import Shorthand.Expansion.Unroll
import Shorthand.Forest.Expansion
import Shorthand.Proofs.Forest.Basic

/-!
# Expansion within a budget

What unrolling a forest within a budget comes to, by recursion: the counterpart of `Forest.expand`
that hands a budget on from node to node (`Forest.expandWithin`). It is the meaning of the loop that
works on the links, and what is true of bounded expansion is proved here, where there is nothing but
recursion.

All of it is one statement, `Forest.unrolls_expandWithin`: a run unrolls to the plain expansion if
the budget is at least what it `need`s, is cut otherwise, and lists a prefix of what a larger budget
gives.

The need is the number of nodes of the expansion, and one more if the forest **ends void**. The budget
is looked at before it is known whether a sibling or a copy will place any node. So if the last one to
be gone through places none, one node has to be left over for it.
-/

namespace Shorthand

open Expansion (Budget)

/-! ### Budgets -/

namespace Expansion.Budget

/-- The budget of a run that has been cut. -/
def spent : Budget :=
  { remaining := some 0, truncated := true }

@[simp] theorem isExhausted_unbounded : (ofLimit none).isExhausted = false := rfl

@[simp] theorem isExhausted_zero : (ofLimit (some 0)).isExhausted = true := rfl

@[simp] theorem isExhausted_succ (n : Nat) : (ofLimit (some (n + 1))).isExhausted = false := rfl

@[simp] theorem isExhausted_spent : spent.isExhausted = true := rfl

@[simp] theorem spend_unbounded : (ofLimit none).spend = ofLimit none := rfl

@[simp] theorem spend_succ (n : Nat) : (ofLimit (some (n + 1))).spend = ofLimit (some n) := rfl

@[simp] theorem truncate_zero : (ofLimit (some 0)).truncate = spent := rfl

@[simp] theorem truncate_spent : spent.truncate = spent := rfl

@[simp] theorem truncated_ofLimit (limit : Option Nat) : (ofLimit limit).truncated = false := rfl

@[simp] theorem truncated_spent : spent.truncated = true := rfl

end Expansion.Budget

/-! ### The recursion -/

/-- Copy number `k` of a node within a budget, when `inner` unrolls its children. A copy below which
something was cut is left out. -/
def Forest.copyWithin (node : Node) (r : Repeat) (inner : Budget → Forest × Budget) (k : Nat)
    (b : Budget) : Forest × Budget :=
  if b.isExhausted then ([], b.truncate)
  else
    let below := inner (if node.isGroup then b else b.spend)
    (if below.2.truncated then [] else Forest.copy node r below.1 k, below.2)

/-- The copies of a node that are still to be made, `left` of them after `made`. -/
def Forest.copiesWithin (node : Node) (r : Repeat) (inner : Budget → Forest × Budget) :
    (left made : Nat) → Budget → Forest × Budget
  | 0, _, b => ([], b)
  | left + 1, made, b =>
    let first := Forest.copyWithin node r inner (made + 1) b
    let others := copiesWithin node r inner left (made + 1) first.2
    (first.1 ++ others.1, others.2)

mutual

/-- What a branch unrolls to within a budget, and what is left of the budget. -/
def Branch.expandWithin : Branch → Budget → Forest × Budget
  | .mk node children, b =>
    if b.isExhausted then ([], b.truncate)
    else
      match node.pendingRepeat with
      | some r => Forest.copiesWithin node r (Forest.expandWithin children) r.copies 0 b
      | none =>
        if node.isGroup then Forest.expandWithin children b
        else
          let below := Forest.expandWithin children b.spend
          ([.mk node below.1], below.2)

/-- What a forest unrolls to within a budget, and what is left of the budget. -/
def Forest.expandWithin : List Branch → Budget → Forest × Budget
  | [], b => ([], b)
  | branch :: rest, b =>
    let first := branch.expandWithin b
    let others := Forest.expandWithin rest first.2
    (first.1 ++ others.1, others.2)

end

mutual

/-- Is what is gone through last in a branch something that places no node? -/
def Branch.endsVoid : Branch → Bool
  | .mk node children =>
    Expansion.multiplicity node == 0 ||
      if children.isEmpty then node.isGroup else Forest.endsVoid children

/-- Is what is gone through last in a forest something that places no node? -/
def Forest.endsVoid : List Branch → Bool
  | [] => false
  | [b] => b.endsVoid
  | _ :: bs => Forest.endsVoid bs

end

/-- The smallest budget that a forest can be expanded within and is not cut. -/
def Forest.need (f : Forest) : Nat :=
  Forest.size (Forest.expand f) + (Forest.endsVoid f).toNat

namespace Forest

theorem expandWithin_append (f g : Forest) (b : Budget) :
    expandWithin (f ++ g) b =
      ((expandWithin f b).1 ++ (expandWithin g (expandWithin f b).2).1,
        (expandWithin g (expandWithin f b).2).2) := by
  induction f generalizing b with
  | nil => simp [expandWithin]
  | cons branch f ih => simp [expandWithin, ih]

/-- With a spent budget no copies are made. -/
theorem copiesWithin_of_isExhausted {node : Node} {r : Repeat} {inner : Budget → Forest × Budget}
    {b : Budget} (hb : b.isExhausted) (left made : Nat) :
    copiesWithin node r inner (left + 1) made b = ([], b.truncate) := by
  induction left generalizing b made with
  | zero => simp [copiesWithin, copyWithin, hb]
  | succ left ih =>
      rw [copiesWithin, copyWithin, if_pos hb, ih (b := b.truncate) hb]
      rfl

/-! ### What a run comes to -/

/-- A run within a budget unrolls to `full`, for which it needs a budget of `need`. -/
structure Unrolls (run : Budget → Forest × Budget) (full : Forest) (need : Nat) : Prop where
  unbounded : run (.ofLimit none) = (full, .ofLimit none)
  fits : ∀ n, need ≤ n → run (.ofLimit (some n)) = (full, .ofLimit (some (n - size full)))
  cut : ∀ n, n < need → (run (.ofLimit (some n))).2 = .spent
  spent : run .spent = ([], .spent)
  size_le : ∀ n, size (run (.ofLimit (some n))).1 ≤ n
  mono : ∀ n m, n ≤ m → ∀ depth,
    preorder depth (run (.ofLimit (some n))).1 <+: preorder depth (run (.ofLimit (some m))).1

namespace Unrolls

variable {run run' : Budget → Forest × Budget} {full full' : Forest} {need need' : Nat}

theorem size_full_le (h : Unrolls run full need) : size full ≤ need := by
  have := h.size_le need
  rwa [h.fits need (Nat.le_refl _)] at this

theorem truncated_iff (h : Unrolls run full need) (n : Nat) :
    (run (.ofLimit (some n))).2.truncated = true ↔ n < need := by
  by_cases hn : n < need
  · simp [h.cut n hn, hn]
  · simp [h.fits n (Nat.not_lt.1 hn), hn]

theorem eq_full (h : Unrolls run full need) {n : Nat}
    (hn : (run (.ofLimit (some n))).2.truncated = false) : (run (.ofLimit (some n))).1 = full := by
  have hneed : ¬n < need := fun hlt => by simp [(h.truncated_iff n).2 hlt] at hn
  rw [h.fits n (Nat.not_lt.1 hneed)]

theorem prefix_full (h : Unrolls run full need) (n depth : Nat) :
    preorder depth (run (.ofLimit (some n))).1 <+: preorder depth full := by
  have hle := h.mono n (max n need) (Nat.le_max_left ..) depth
  rwa [h.fits _ (Nat.le_max_right ..)] at hle

/-- Doing nothing. -/
theorem nothing : Unrolls (fun b => ([], b)) [] 0 :=
  ⟨rfl, fun _ _ => rfl, fun _ hn => absurd hn (Nat.not_lt_zero _), rfl, fun _ => Nat.zero_le _,
    fun _ _ _ _ => List.prefix_rfl⟩

/-- One run after the other. -/
theorem andThen (h : Unrolls run full need) (h' : Unrolls run' full' need') :
    Unrolls (fun b => ((run b).1 ++ (run' (run b).2).1, (run' (run b).2).2)) (full ++ full')
      (max need (size full + need')) := by
  have hle := h.size_full_le
  -- A first run that is cut leaves nothing to the second one.
  have hcut : ∀ n, n < need → run' (run (.ofLimit (some n))).2 = ([], .spent) := by
    intro n hn
    rw [h.cut n hn, h'.spent]
  constructor
  case unbounded => simp only [h.unbounded, h'.unbounded]
  case fits =>
    intro n hn
    simp only [h.fits n (by omega), h'.fits (n - size full) (by omega), size_append]
    rw [Nat.sub_sub]
  case cut =>
    intro n hn
    by_cases hfit : need ≤ n
    · simp only [h.fits n hfit]
      exact h'.cut _ (by omega)
    · simp only [hcut n (by omega)]
  case spent => simp only [h.spent, h'.spent, List.append_nil]
  case size_le =>
    intro n
    by_cases hfit : need ≤ n
    · simp only [h.fits n hfit, size_append]
      have := h'.size_le (n - size full)
      omega
    · simp only [hcut n (by omega), List.append_nil]
      exact h.size_le n
  case mono =>
    intro n m hnm depth
    by_cases hfit : need ≤ n
    · simp only [h.fits n hfit, h.fits m (by omega), preorder_append]
      exact List.prefix_append_right_inj _ |>.2 (h'.mono _ _ (by omega) depth)
    · simp only [hcut n (by omega), List.append_nil, preorder_append]
      exact (h.mono n m hnm depth).trans (List.prefix_append _ _)

theorem congr (h : Unrolls run full need) (heq : ∀ b, run' b = run b) : Unrolls run' full need :=
  funext heq ▸ h

/-- A run that looks at the budget first. -/
theorem guarded (h : Unrolls run full need) :
    Unrolls (fun b => if b.isExhausted then ([], b.truncate) else run b) full (max 1 need) := by
  constructor
  case unbounded => simp [h.unbounded]
  case fits =>
    intro n hn
    obtain ⟨n, rfl⟩ : ∃ k, n = k + 1 := ⟨n - 1, by omega⟩
    simpa using h.fits (n + 1) (by omega)
  case cut =>
    intro n hn
    cases n with
    | zero => simp
    | succ n => simpa using h.cut (n + 1) (by omega)
  case spent => simp
  case size_le =>
    intro n
    cases n with
    | zero => simp [size]
    | succ n => simpa using h.size_le (n + 1)
  case mono =>
    intro n m hnm depth
    cases n with
    | zero => simp [preorder]
    | succ n =>
        obtain ⟨m, rfl⟩ : ∃ k, m = k + 1 := ⟨m - 1, by omega⟩
        simpa using h.mono (n + 1) (m + 1) hnm depth

/-- A node that is placed before what is below it. -/
theorem below (node : Node) (h : Unrolls run full need) :
    Unrolls (fun b => if b.isExhausted then ([], b.truncate) else
      ([.mk node (run b.spend).1], (run b.spend).2)) [.mk node full] (need + 1) := by
  constructor
  case unbounded => simp [h.unbounded]
  case fits =>
    intro n hn
    obtain ⟨n, rfl⟩ : ∃ k, n = k + 1 := ⟨n - 1, by omega⟩
    simp [h.fits n (by omega), size, Branch.size]
  case cut =>
    intro n hn
    cases n with
    | zero => simp
    | succ n => simpa using h.cut n (by omega)
  case spent => simp
  case size_le =>
    intro n
    cases n with
    | zero => simp [size]
    | succ n => simpa [size, Branch.size] using h.size_le n
  case mono =>
    intro n m hnm depth
    cases n with
    | zero => simp [preorder]
    | succ n =>
        obtain ⟨m, rfl⟩ : ∃ k, m = k + 1 := ⟨m - 1, by omega⟩
        simpa [preorder, Branch.preorder] using h.mono n m (by omega) (depth + 1)

/-- Leaving out all that was made by a run that was cut. -/
theorem whole (h : Unrolls run full need) (place : Forest → Forest)
    (hplace : ∀ f, size (place f) = size f) :
    Unrolls (fun b => (if (run b).2.truncated then [] else place (run b).1, (run b).2))
      (place full) need := by
  have hcut : ∀ n, n < need → (run (.ofLimit (some n))).2.truncated := fun n hn => by
    rw [h.cut n hn]
    rfl
  constructor
  case unbounded => simp [h.unbounded]
  case fits =>
    intro n hn
    simp [h.fits n hn, hplace]
  case cut => exact h.cut
  case spent => simp [h.spent]
  case size_le =>
    intro n
    by_cases hfit : need ≤ n
    · have := h.size_le n
      simpa [h.fits n hfit, hplace] using this
    · simp [hcut n (by omega), size]
  case mono =>
    intro n m hnm depth
    by_cases hfit : need ≤ n
    · simp [h.fits n hfit, h.fits m (by omega)]
    · simp [hcut n (by omega), preorder]

end Unrolls

/-! ### Copies -/

theorem size_map_stamp (r : Repeat) (f : Forest) : size (f.map (Branch.stamp r)) = size f := by
  induction f with
  | nil => rfl
  | cons b f ih =>
      obtain ⟨node, children⟩ := b
      simp [size, Branch.stamp, Branch.size, ih]

theorem size_copy (node : Node) (r : Repeat) (inner : Forest) (k : Nat) :
    size (copy node r inner k) = size inner + if node.isGroup then 0 else 1 := by
  by_cases hg : node.isGroup <;> simp [copy, hg, size_map_stamp, size, Branch.size]

theorem Unrolls.copyWithin {inner : Budget → Forest × Budget} {full : Forest}
    {need : Nat} (h : Unrolls inner full need) (node : Node) (r : Repeat) (k : Nat) :
    Unrolls (copyWithin node r inner k) (copy node r full k)
      (if node.isGroup then max 1 need else need + 1) := by
  by_cases hg : node.isGroup
  · rw [if_pos hg, Forest.copy, if_pos hg]
    refine (h.guarded.whole _ (size_map_stamp _)).congr fun b => ?_
    by_cases hb : b.isExhausted <;> simp [Forest.copyWithin, Forest.copy, Budget.truncate, hg, hb]
  · rw [if_neg hg, Forest.copy, if_neg hg]
    refine ((h.below _).whole id fun _ => rfl).congr fun b => ?_
    by_cases hb : b.isExhausted <;> simp [Forest.copyWithin, Forest.copy, Budget.truncate, hg, hb]

/-- The first of some more copies, and the others behind it. -/
theorem flatMap_range_succ {α : Type} (g : Nat → List α) (left made : Nat) :
    (List.range (left + 1)).flatMap (fun k => g (made + k + 1)) =
      g (made + 1) ++ (List.range left).flatMap fun k => g (made + 1 + k + 1) := by
  rw [List.range_succ_eq_map, List.flatMap_cons, List.flatMap_map]
  simp only [Nat.add_zero, Nat.add_assoc, Nat.add_comm 1]

/-- Copies need the nodes of all of them, and what the last one needs beyond its own. -/
theorem Unrolls.copiesWithin {node : Node} {r : Repeat} {inner : Budget → Forest × Budget}
    {full : Forest} {need : Nat} (h : Unrolls inner full need) {void : Bool}
    (hvoid : (if node.isGroup then max 1 need else need + 1) = size (copy node r full 0) + void.toNat)
    (left made : Nat) :
    Unrolls (copiesWithin node r inner left made)
      ((List.range left).flatMap fun k => copy node r full (made + k + 1))
      (left * size (copy node r full 0) + (left != 0 && void).toNat) := by
  induction left generalizing made with
  | zero => simpa [Forest.copiesWithin] using Unrolls.nothing
  | succ left ih =>
      have hrun := (h.copyWithin node r (made + 1)).andThen (ih (made + 1))
      have hsize : size (copy node r full (made + 1)) = size (copy node r full 0) := by
        rw [size_copy, size_copy]
      have hneed : max (if node.isGroup then max 1 need else need + 1)
          (size (copy node r full (made + 1)) +
            (left * size (copy node r full 0) + (left != 0 && void).toNat)) =
          (left + 1) * size (copy node r full 0) + (left + 1 != 0 && void).toNat := by
        rw [hvoid, hsize, Nat.succ_mul]
        cases left with
        | zero => simp
        | succ left => simp; omega
      rw [flatMap_range_succ (copy node r full), ← hneed]
      exact hrun

/-! ### Forests -/

theorem size_copies (node : Node) (r : Repeat) (inner : Forest) (n : Nat) :
    size ((List.range n).flatMap fun k => copy node r inner (k + 1)) =
      n * size (copy node r inner 0) := by
  have hconst : ∀ k, size (copy node r inner (k + 1)) = size (copy node r inner 0) := fun k => by
    rw [size_copy, size_copy]
  induction n with
  | zero => simp [size]
  | succ n ih => simp [List.range_succ, ih, hconst, Nat.succ_mul]

mutual

theorem size_branch_expand : ∀ b : Branch, size b.expand = b.expandedSize
  | .mk node children => by
      have h := size_expand children
      rw [Branch.expand, Branch.expandedSize, ← h, Expansion.multiplicity]
      cases node.pendingRepeat with
      | some r =>
          simp only [size_copies, size_copy]
          rw [Nat.add_comm (size (expand children))]
      | none =>
          simp only [Nat.one_mul]
          by_cases hg : node.isGroup
          · simp [hg]
          · simp [hg, size, Branch.size, Nat.add_comm]

/-- An expansion has as many nodes as the multiplicities ask for. -/
theorem size_expand : ∀ f : Forest, size (expand f) = expandedSize f
  | [] => by simp [expand, size, expandedSize]
  | b :: bs => by rw [expand, size_append, expandedSize, size_branch_expand b, size_expand bs]

end

theorem Unrolls.need_pos {run : Budget → Forest × Budget} {full : Forest} {need : Nat}
    (h : Unrolls run full need) (h0 : (run (.ofLimit (some 0))).2.truncated) : 0 < need := by
  refine Nat.pos_of_ne_zero fun hneed => ?_
  rw [h.fits 0 (by omega)] at h0
  exact absurd h0 (by simp)

theorem expandWithin_spent (f : Forest) : expandWithin f .spent = ([], .spent) := by
  induction f with
  | nil => rfl
  | cons b f ih =>
      obtain ⟨node, children⟩ := b
      simp [expandWithin, Branch.expandWithin, ih]

/-- Whatever is gone through looks at the budget, so only the empty forest needs none. -/
theorem need_pos {f : Forest} (h : Unrolls (expandWithin f) (expand f) (need f)) (hf : f ≠ []) :
    0 < need f := by
  obtain ⟨⟨node, children⟩, bs, rfl⟩ := List.exists_cons_of_ne_nil hf
  refine h.need_pos ?_
  simp [expandWithin, Branch.expandWithin, expandWithin_spent]

/-- What a node needs with all below it, each time that it is placed. -/
theorem need_of_children (node : Node) {children : Forest} (hpos : children ≠ [] → 0 < need children) :
    (if node.isGroup then max 1 (need children) else need children + 1) =
      size (expand children) + (if node.isGroup then 0 else 1) +
        (if children.isEmpty then node.isGroup else endsVoid children).toNat := by
  cases children with
  | nil => by_cases hg : node.isGroup <;> simp [hg, need, expand, size, endsVoid]
  | cons b bs =>
      have hpos := hpos (by simp)
      by_cases hg : node.isGroup
      · simp only [hg, if_true, List.isEmpty_cons, Bool.false_eq_true, if_false, Nat.add_zero]
        rw [← need]
        omega
      · simp only [hg, if_false, List.isEmpty_cons, Bool.false_eq_true]
        rw [need]
        omega

/-- What a repeated node needs with all its copies. Even where there are none, the budget is looked at
once. -/
theorem need_of_copies {node : Node} {r : Repeat} (hr : node.pendingRepeat = some r)
    {children : Forest} (hpos : children ≠ [] → 0 < need children) :
    max 1 (r.copies * size (copy node r (expand children) 0) + (r.copies != 0 &&
        if children.isEmpty then node.isGroup else endsVoid children).toNat) =
      size (Branch.mk node children).expand + (Branch.mk node children).endsVoid.toNat := by
  have hneed := need_of_children node hpos
  have hm : Expansion.multiplicity node = r.copies := by simp [Expansion.multiplicity, hr]
  have hfull : (Branch.mk node children).expand =
      (List.range r.copies).flatMap fun k => copy node r (expand children) (k + 1) := by
    rw [Branch.expand, hr]
  rw [hfull, size_copies, Branch.endsVoid, hm]
  generalize (if children.isEmpty then node.isGroup else endsVoid children) = void at hneed ⊢
  cases r.copies with
  | zero => simp
  | succ n =>
      have hone : 1 ≤ size (copy node r (expand children) 0) + void.toNat := by
        rw [size_copy, ← hneed]
        split <;> omega
      have hle := Nat.le_mul_of_pos_left (size (copy node r (expand children) 0)) (Nat.add_one_pos n)
      have hnot : (n + 1 == 0) = false := rfl
      simp only [bne, hnot, Bool.not_false, Bool.true_and, Bool.false_or]
      omega

mutual

/-- What a node needs depends on how often it is placed, and on whether what is placed last is
empty. -/
theorem unrolls_branch : ∀ b : Branch,
    Unrolls b.expandWithin b.expand (size b.expand + b.endsVoid.toNat)
  | .mk node children => by
      have h := unrolls_expandWithin children
      have hpos : children ≠ [] → 0 < need children := fun hne => need_pos h hne
      have hneed := need_of_children node hpos
      cases hr : node.pendingRepeat with
      | some r =>
          have hfull : (Branch.mk node children).expand =
              (List.range r.copies).flatMap fun k => copy node r (expand children) (k + 1) := by
            rw [Branch.expand, hr]
          have hrun := (h.copiesWithin (r := r) (by rw [hneed, size_copy]) r.copies 0).guarded
          rw [← need_of_copies hr hpos, hfull]
          simp only [Nat.zero_add] at hrun
          exact hrun.congr fun b => by rw [Branch.expandWithin, hr]
      | none =>
          -- A node that is placed once ends void just if what is below it does.
          have hm : Expansion.multiplicity node = 1 := by simp [Expansion.multiplicity, hr]
          have hone : (Expansion.multiplicity node == 0) = false := by rw [hm]; rfl
          rw [Branch.endsVoid, hone, Bool.false_or]
          by_cases hg : node.isGroup
          · have hfull : (Branch.mk node children).expand = expand children := by
              rw [Branch.expand, hr]
              exact if_pos hg
            rw [if_pos hg, if_pos hg, Nat.add_zero] at hneed
            rw [hfull, ← hneed]
            exact h.guarded.congr fun b => by simp [Branch.expandWithin, hr, hg]
          · have hfull : (Branch.mk node children).expand = [.mk node (expand children)] := by
              rw [Branch.expand, hr]
              exact if_neg hg
            have hsize : size [Branch.mk node (expand children)] = size (expand children) + 1 := by
              simp [size, Branch.size]
            rw [if_neg hg, if_neg hg] at hneed
            rw [hfull, hsize, ← hneed]
            exact (h.below node).congr fun b => by simp [Branch.expandWithin, hr, hg]

/-- **A forest unrolls to its expansion**, within any budget that is at least its need. -/
theorem unrolls_expandWithin : ∀ f : Forest, Unrolls (expandWithin f) (expand f) (need f)
  | [] => by simpa [expandWithin, expand, need, size, endsVoid] using Unrolls.nothing
  | b :: bs => by
      have hfirst := unrolls_branch b
      have hothers := unrolls_expandWithin bs
      have hneed : max (size b.expand + b.endsVoid.toNat) (size b.expand + need bs) =
          need (b :: bs) := by
        cases bs with
        | nil => simp [need, expand, size, endsVoid]
        | cons b' bs =>
            have hpos := need_pos hothers (by simp)
            have hle := b.endsVoid.toNat_le
            have hsum : need (b :: b' :: bs) = size b.expand + need (b' :: bs) := by
              simp [need, expand, endsVoid, Nat.add_assoc]
            omega
      rw [expand, ← hneed]
      exact (hfirst.andThen hothers).congr fun _ => by rw [expandWithin]

end

end Forest

end Shorthand
