import Shorthand.Proofs.Expansion.Cloned
import Shorthand.Proofs.Tree.Replaced

/-!
# The loop does what the recursion does

The loop over a stack of frames changes a linked tree while it goes through it. `Simulated f` says
of a forest `f` that, wherever siblings with the branches `f` stand, going through them replaces
them by the branches of `Forest.expandWithin f`, clones `Forest.clonedWithin f` nodes on the way,
and leaves the rest of the tree and of the stack alone. Every forest is simulated (`simulated`), by
induction on its size: a group that is dissolved puts its children in front of the siblings behind
it, and the forest that is still to be gone through is smaller.

`Forest.steps` bounds the steps, so the steps granted to the loop are enough for it to end
(`run_eq`, `unrolling_eq`).
-/

namespace Shorthand

open Expansion (workBound)

/-! ### How many steps are needed -/

namespace Forest

/-- The bound on the steps to go through a forest. -/
def steps (f : Forest) : Nat :=
  workBound (nodes f)

@[simp] theorem steps_nil : steps [] = 1 := by
  simp [steps, workBound]

theorem steps_cons (node : Node) (children bs : Forest) :
    steps (.mk node children :: bs) =
      2 * Expansion.multiplicity node + 3 +
        max 1 (Expansion.multiplicity node) * steps (children ++ bs) := by
  rw [steps, nodes_cons, ← nodes_append, workBound, List.foldr_cons, ← workBound, ← steps]

theorem one_le_workBound (ns : List Node) : 1 ≤ workBound ns := by
  cases ns with
  | nil => simp [workBound]
  | cons n ns =>
      rw [workBound, List.foldr_cons]
      omega

theorem workBound_append (ns ms : List Node) :
    workBound ns + workBound ms ≤ workBound (ns ++ ms) + 1 := by
  have hone := one_le_workBound ms
  induction ns with
  | nil => simp [workBound, Nat.add_comm]
  | cons n ns ih =>
      have hcons : ∀ ns, workBound (n :: ns) =
          2 * Expansion.multiplicity n + 3 + max 1 (Expansion.multiplicity n) * workBound ns :=
        fun _ => rfl
      rw [List.cons_append, hcons, hcons]
      obtain ⟨k, hk⟩ : ∃ k, max 1 (Expansion.multiplicity n) = k + 1 := by
        exact ⟨max 1 (Expansion.multiplicity n) - 1, by omega⟩
      have hmul := Nat.mul_le_mul_left k ih
      have hk' : k ≤ k * workBound ms := Nat.le_mul_of_pos_right k hone
      rw [hk, Nat.add_one_mul k, Nat.add_one_mul k]
      rw [Nat.mul_add, Nat.mul_add] at hmul
      omega

theorem steps_append (f g : Forest) : steps f + steps g ≤ steps (f ++ g) + 1 := by
  rw [steps, steps, steps, nodes_append]
  exact workBound_append _ _

theorem one_le_steps (f : Forest) : 1 ≤ steps f :=
  one_le_workBound _

/-- The bound for a node is enough for its copies, each with all below it, and what follows. -/
theorem steps_copies_le (m : Nat) (f g : Forest) :
    2 + m * (steps f + 1) + steps g ≤ 2 * m + 3 + max 1 m * steps (f ++ g) := by
  have happend := steps_append f g
  have hone := one_le_steps f
  cases m with
  | zero =>
      rw [Nat.zero_mul, Nat.max_eq_left (Nat.zero_le _), Nat.one_mul]
      omega
  | succ m =>
      have hmul := Nat.mul_le_mul_left (m + 1) happend
      have hle : steps g ≤ (m + 1) * steps g := Nat.le_mul_of_pos_left _ (Nat.succ_pos m)
      rw [Nat.mul_add, Nat.mul_add] at hmul
      rw [Nat.max_eq_right (Nat.le_add_left 1 m), Nat.mul_add]
      omega

end Forest

namespace Expansion

/-! ### Runs -/

namespace Work

variable {w w' w'' : Work} {m n : Nat}

/-- The work comes to another state within a number of steps. -/
def Reaches (w : Work) (n : Nat) (w' : Work) : Prop :=
  ∃ k, k ≤ n ∧ ∀ fuel, run (k + fuel) w = run fuel w'

theorem Reaches.refl (w : Work) : w.Reaches 0 w :=
  ⟨0, Nat.le_refl _, fun fuel => by rw [Nat.zero_add]⟩

theorem Reaches.step (t : Tree) (b : Budget) (stack : List Frame) (frame : Frame) :
    Reaches ⟨t, b, frame :: stack⟩ 1 (step t b stack frame) :=
  ⟨1, Nat.le_refl _, fun fuel => by rw [Nat.add_comm]; rfl⟩

theorem Reaches.trans (h : w.Reaches m w') (h' : w'.Reaches n w'') : w.Reaches (m + n) w'' := by
  obtain ⟨j, hj, hrun⟩ := h
  obtain ⟨k, hk, hrun'⟩ := h'
  exact ⟨j + k, by omega, fun fuel => by rw [Nat.add_assoc, hrun, hrun']⟩

theorem Reaches.mono (h : w.Reaches m w') (hmn : m ≤ n) : w.Reaches n w' := by
  obtain ⟨k, hk, hrun⟩ := h
  exact ⟨k, Nat.le_trans hk hmn, hrun⟩

/-- Enough steps come to the end. -/
theorem Reaches.run_eq {t : Tree} {b : Budget} (h : w.Reaches n ⟨t, b, []⟩) (hn : n ≤ m) :
    run m w = ⟨t, b, []⟩ := by
  obtain ⟨k, hk, hrun⟩ := h
  obtain ⟨fuel, rfl⟩ := Nat.exists_eq_add_of_le (Nat.le_trans hk hn)
  rw [hrun]
  cases fuel <;> rfl

end Work

/-! ### What one copy comes to -/

section

variable {t t' : Tree} {p id : NodeId} {l ids r : List NodeId}

theorem replaced_setRepeat (s : Repeat) (h : t.Sound) (hk : t.children p = l ++ id :: r) :
    t.Replaced (setRepeat s t id) p l [id] [id] r ∧
      (setRepeat s t id).branch id = (t.branch id).stamp s := by
  have hid : id.index < t.size := (h.children_lt (p := p) (by simp [hk])).1
  refine ⟨h.replaced_modifyNode hk _, ?_⟩
  rw [setRepeat, h.branch_modifyNode hid, h.branch_eq id, Branch.stamp]

/-- Writing a repeat into siblings stamps their branches. -/
theorem replaced_foldl_setRepeat (s : Repeat) (h : t.Sound) (hk : t.children p = l ++ ids ++ r) :
    t.Replaced (ids.foldl (setRepeat s) t) p l ids ids r ∧
      ids.map (ids.foldl (setRepeat s) t).branch = (ids.map t.branch).map (Branch.stamp s) := by
  induction ids generalizing t l with
  | nil => exact ⟨Tree.Replaced.refl h hk, rfl⟩
  | cons id ids ih =>
      obtain ⟨hfirst, hbranch⟩ := replaced_setRepeat s h (r := ids ++ r) (by simpa using hk)
      obtain ⟨hrest, hmap⟩ := ih (l := l ++ [id]) hfirst.sound' (by rw [hfirst.children']; simp)
      have hsame : ids.map (setRepeat s t id).branch = ids.map t.branch :=
        List.map_congr_left fun c hc => hfirst.branch_beside (by simp [hc])
      refine ⟨hfirst.andThen hrest, ?_⟩
      rw [List.foldl_cons, List.map_cons, List.map_cons, List.map_cons, hmap, hsame,
        hrest.branch_beside (c := id) (by simp), hbranch]

/-- A settled copy has become what a copy is to be, or is gone if something was cut. -/
theorem replaced_settle {node : Node} {inner : Forest} {s : Repeat} {k : Nat} {copy : NodeId}
    (truncated : Bool) (h : t.Sound) (hk : t.children p = l ++ copy :: r)
    (hcopy : t.branch copy =
      .mk { node with repeats := some { count := s.count, copy := some k } } inner) :
    ∃ new, t.Replaced (settle t copy { count := s.count, copy := some k } truncated) p l [copy] new r ∧
      new.map (settle t copy { count := s.count, copy := some k } truncated).branch =
        if truncated then [] else Forest.copy node s inner k := by
  rw [h.branch_eq copy, Branch.mk.injEq] at hcopy
  obtain ⟨hnode, hinner⟩ := hcopy
  have hgroup : (t.node copy).isGroup = node.isGroup := by rw [hnode]; rfl
  cases truncated with
  | true => exact ⟨[], h.replaced_remove hk, rfl⟩
  | false =>
      by_cases hg : node.isGroup
      · -- A group gives its place to its children, which carry the stamp from now on.
        obtain ⟨hsplice, hsame⟩ := h.replaced_splice hk
        obtain ⟨hstamp, hmap⟩ := replaced_foldl_setRepeat { count := s.count, copy := some k }
          hsplice.sound' hsplice.children'
        have hsettle : settle t copy { count := s.count, copy := some k } false =
            (t.children copy).foldl (setRepeat { count := s.count, copy := some k })
              (t.splice copy).1 := by
          rw [settle, if_neg Bool.false_ne_true, hgroup, if_pos hg]
          rfl
        refine ⟨t.children copy, hsettle ▸ hsplice.trans hstamp, ?_⟩
        rw [hsettle, hmap, hsame, hinner, if_neg Bool.false_ne_true, Forest.copy, if_pos hg]
      · have hsettle : settle t copy { count := s.count, copy := some k } false = t := by
          rw [settle, if_neg Bool.false_ne_true, hgroup, if_neg hg]
        rw [hsettle]
        refine ⟨[copy], Tree.Replaced.refl h (by simpa using hk), ?_⟩
        rw [List.map_singleton, h.branch_eq copy, hnode, hinner, if_neg Bool.false_ne_true, Forest.copy,
          if_neg hg]

@[simp] theorem size_settle (t : Tree) (copy : NodeId) (stamp : Repeat) (truncated : Bool) :
    (settle t copy stamp truncated).size = t.size := by
  rw [settle]
  split
  · exact Tree.size_remove t copy
  · split
    · have hstamp := Tree.foldl_keeps Tree.size (setRepeat stamp) fun t id => Tree.size_modifyNode t id _
      exact (hstamp _ _).trans (Tree.size_splice t copy)
    · rfl

end

/-! ### The simulation -/

/-- Within `n` steps the work is done down to `stack`, the siblings `old` of `t` have been replaced as
`result` says, and so many nodes have been cloned. -/
def Work.Delivers (w : Work) (n : Nat) (stack : List Frame) (t : Tree) (p : NodeId)
    (l old r : List NodeId) (result : Forest × Budget) (cloned : Nat) : Prop :=
  ∃ t' new, w.Reaches n ⟨t', result.2, stack⟩ ∧ t.Replaced t' p l old new r ∧
    new.map t'.branch = result.1 ∧ t'.size = t.size + cloned

/-- Wherever siblings with the branches `f` stand, going through them does what the recursion does. -/
def Simulated (f : Forest) : Prop :=
  ∀ (t : Tree) (p : NodeId) (l todo : List NodeId) (b : Budget) (stack : List Frame), t.Sound →
    t.children p = l ++ todo → todo.map t.branch = f →
    Work.Delivers ⟨t, b, .siblings todo.head? :: stack⟩ (Forest.steps f) stack t p l todo []
      (Forest.expandWithin f b) (Forest.clonedWithin f b)

/-- Making the next copy: it stands in front of its original, and what is below it comes next. -/
theorem visitCopies_eq {t : Tree} {b : Budget} {stack : List Frame} {id : NodeId} {s : Repeat}
    {made : Nat} (hmade : made ≠ s.copies) (hb : ¬b.isExhausted) :
    visitCopies t b stack id s made =
      let t' := (setRepeat { count := s.count, copy := some (made + 1) } (t.copyTree id)
        t.nextId).insertBefore t.nextId id
      ⟨t', if (t'.node t.nextId).isGroup then b else b.spend,
        .siblings (t'.firstChild t.nextId) :: .copies id s (made + 1) (some t.nextId) :: stack⟩ := by
  rw [visitCopies, if_neg hmade, if_neg hb]

/-- Within a budget, the next copy is made, what is below it is unrolled and the copy is settled. The
loop is then at the original again, which is as it was, behind what has become of the copy. -/
theorem delivers_copy {node : Node} {children : Forest} (hsim : Simulated children) {s : Repeat}
    (stack : List Frame) {p id : NodeId} {l r : List NodeId} {made : Nat} (hmade : made ≠ s.copies)
    {t : Tree} {b : Budget} (hb : ¬b.isExhausted) (h : t.Sound) (hk : t.children p = l ++ id :: r)
    (hid : t.branch id = .mk node children) :
    ∃ t' new, (visitCopies t b stack id s made).Reaches (Forest.steps children + 1)
        (visitCopies t' (Forest.copyWithin node s (Forest.expandWithin children) (made + 1) b).2 stack
          id s (made + 1)) ∧
      t.Replaced t' p l [] new (id :: r) ∧
      new.map t'.branch = (Forest.copyWithin node s (Forest.expandWithin children) (made + 1) b).1 ∧
      t'.size =
        t.size + Forest.copyCloned node (Forest.size children + 1) (Forest.clonedWithin children) b := by
  rw [visitCopies_eq hmade hb, Forest.copyCloned, Forest.copyWithin, if_neg hb, if_neg hb]
  obtain ⟨hput, hcopy⟩ := h.replaced_copy hk fun n =>
    { n with repeats := some { count := s.count, copy := some (made + 1) } }
  have hsize₁ := h.size_putCopy hk fun n =>
    { n with repeats := some { count := s.count, copy := some (made + 1) } }
  rw [hid, Branch.size] at hsize₁
  rw [← setRepeat] at hput hcopy hsize₁
  generalize (setRepeat { count := s.count, copy := some (made + 1) } (t.copyTree id)
    t.nextId).insertBefore t.nextId id = t₁ at hput hcopy hsize₁ ⊢
  generalize t.nextId = copy at hput hcopy ⊢
  rw [h.branch_eq id, Branch.mk.injEq] at hid
  rw [hid.1, hid.2, hput.sound'.branch_eq, Branch.mk.injEq] at hcopy
  have hgroup : (t₁.node copy).isGroup = node.isGroup := by rw [hcopy.1]; rfl
  simp only [hgroup, hput.sound'.spells.first copy]
  -- What is below the copy is unrolled, as the recursion does it.
  obtain ⟨t₂, new₂, hrun₂, hin, hnew₂, hsize₂⟩ := hsim t₁ copy [] (t₁.children copy)
    (if node.isGroup then b else b.spend) (.copies id s (made + 1) (some copy) :: stack)
    hput.sound' rfl hcopy.2
  obtain ⟨hnest, hcopy₂⟩ := hin.nested (p := p) (l := l) (r := id :: r)
    (by rw [hput.children']; simp)
  generalize Forest.expandWithin children (if node.isGroup then b else b.spend) = below
    at hrun₂ hnew₂ ⊢
  generalize Forest.clonedWithin children (if node.isGroup then b else b.spend) = cloned
    at hsize₂ ⊢
  rw [hcopy.1, hnew₂] at hcopy₂
  -- The next step settles the copy, and goes on with the original.
  obtain ⟨new₃, hset, hnew₃⟩ := replaced_settle (l := l) (r := id :: r) below.2.truncated
    hnest.sound' (by rw [hnest.children']; simp) hcopy₂
  have hrun₃ := Work.Reaches.step t₂ below.2 stack (.copies id s (made + 1) (some copy))
  rw [Work.step] at hrun₃
  have hsize₃ := size_settle t₂ copy { count := s.count, copy := some (made + 1) } below.2.truncated
  exact ⟨_, new₃, hrun₂.trans hrun₃, hput.trans (hnest.trans hset), hnew₃, by omega⟩

/-- **All copies of a repeated node.** The original goes where the last copy is made, or where the
budget is found exhausted in front of the next one. -/
theorem delivers_copies {node : Node} {children : Forest} (hsim : Simulated children) {s : Repeat}
    {stack : List Frame} {p id : NodeId} {r : List NodeId} (left made : Nat)
    (hleft : made + left = s.copies) {t : Tree} {l : List NodeId} (b : Budget) (h : t.Sound)
    (hk : t.children p = l ++ id :: r) (hid : t.branch id = .mk node children) :
    (visitCopies t b stack id s made).Delivers (left * (Forest.steps children + 1)) stack t p l [id] r
      (Forest.copiesWithin node s (Forest.expandWithin children) left made b)
      (Forest.copiesCloned node s (Forest.expandWithin children) (Forest.size children + 1)
        (Forest.clonedWithin children) left made b) := by
  induction left generalizing made t l b with
  | zero =>
      rw [visitCopies, if_pos (by omega)]
      exact ⟨_, [], (Work.Reaches.refl _).mono (Nat.zero_le _), h.replaced_remove hk, rfl,
        Tree.size_remove t id⟩
  | succ left ih =>
      by_cases hb : b.isExhausted
      · rw [visitCopies, if_neg (by omega), if_pos hb, Forest.copiesWithin_of_isExhausted hb,
          Forest.copiesCloned_of_isExhausted hb]
        exact ⟨_, [], (Work.Reaches.refl _).mono (Nat.zero_le _), h.replaced_remove hk, rfl,
          Tree.size_remove t id⟩
      · have hmade : made ≠ s.copies := by omega
        obtain ⟨t₁, new₁, hrun₁, hone, hnew₁, hsize₁⟩ := delivers_copy hsim stack hmade hb h hk hid
        -- One more copy stands in front of the original, whose branch is still the same.
        obtain ⟨t₂, new₂, hrun₂, hrest, hnew₂, hsize₂⟩ :=
          ih (made + 1) (by omega) (l := l ++ new₁)
            (Forest.copyWithin node s (Forest.expandWithin children) (made + 1) b).2 hone.sound'
            (by rw [hone.children']) ((hone.branch_beside (by simp)).trans hid)
        rw [Forest.copiesWithin, Forest.copiesCloned]
        refine ⟨t₂, new₁ ++ new₂, ?_, Tree.Replaced.andThen hone hrest, ?_, by omega⟩
        · refine (hrun₁.trans hrun₂).mono ?_
          rw [Nat.succ_mul]
          omega
        · have hsame : new₁.map t₂.branch = new₁.map t₁.branch :=
            List.map_congr_left fun c hc => hrest.branch_beside (by simp [hc])
          rw [List.map_append, hsame, hnew₁, hnew₂]

/-- One sibling, and then those behind it. -/
theorem Work.Delivers.siblings {w : Work} {n : Nat} {stack : List Frame} {t : Tree} {p id : NodeId}
    {l rest : List NodeId} {bs : Forest} {first : Forest × Budget} {cloned : Nat}
    (h : w.Delivers n (.siblings rest.head? :: stack) t p l [id] rest first cloned)
    (hsim : Simulated bs) (hrest : rest.map t.branch = bs) :
    w.Delivers (n + Forest.steps bs) stack t p l (id :: rest) []
      (first.1 ++ (Forest.expandWithin bs first.2).1, (Forest.expandWithin bs first.2).2)
      (cloned + Forest.clonedWithin bs first.2) := by
  obtain ⟨t₁, new₁, hrun₁, hone, hnew₁, hsize₁⟩ := h
  obtain ⟨t₂, new₂, hrun₂, htwo, hnew₂, hsize₂⟩ := hsim t₁ p (l ++ new₁) rest first.2 stack hone.sound'
    hone.children' (hone.map_branch_right.trans hrest)
  refine ⟨t₂, new₁ ++ new₂, hrun₁.trans hrun₂, ?_, ?_, by omega⟩
  · have hone' : t.Replaced t₁ p l [id] new₁ (rest ++ []) := by rwa [List.append_nil]
    exact hone'.andThen htwo
  · have hsame : new₁.map t₂.branch = new₁.map t₁.branch :=
      List.map_congr_left fun c hc => htwo.branch_beside (by simp [hc])
    rw [List.map_append, hsame, hnew₁, hnew₂]

theorem Work.Delivers.mono {w : Work} {m n : Nat} {stack : List Frame} {t : Tree} {p : NodeId}
    {l old r : List NodeId} {result : Forest × Budget} {cloned : Nat}
    (h : w.Delivers m stack t p l old r result cloned) (hmn : m ≤ n) :
    w.Delivers n stack t p l old r result cloned := by
  obtain ⟨t', new, hrun, hrest⟩ := h
  exact ⟨t', new, hrun.mono hmn, hrest⟩

theorem simulated_nil : Simulated [] := by
  intro t p l todo b stack h hk hf
  obtain rfl := List.map_eq_nil_iff.1 hf
  rw [Forest.steps_nil]
  exact ⟨t, [], Work.Reaches.step t b stack (.siblings none),
    Tree.Replaced.refl h (by simpa using hk), rfl, rfl⟩

/-- A sibling is replaced by what its branch unrolls to, unless it is dissolved at once. -/
theorem delivers_sibling {node : Node} {children : Forest} (hsim : Simulated children) {t : Tree}
    {p id : NodeId} {l rest : List NodeId} (b : Budget) (stack : List Frame) (h : t.Sound)
    (hk : t.children p = l ++ id :: rest) (hid : t.branch id = .mk node children)
    (hplain : ¬b.isExhausted → node.pendingRepeat = none → ¬node.isGroup) :
    Work.Delivers ⟨t, b, .siblings (some id) :: stack⟩
      (2 + multiplicity node * (Forest.steps children + 1)) (.siblings rest.head? :: stack) t p l [id]
      rest ((Branch.mk node children).expandWithin b) ((Branch.mk node children).clonedWithin b) := by
  have hvisit := Work.Reaches.step t b stack (.siblings (some id))
  have hbranch := hid
  rw [h.branch_eq id, Branch.mk.injEq] at hbranch
  obtain ⟨hnode, hkids⟩ := hbranch
  rw [Work.step, visitSibling] at hvisit
  simp only [(h.spells.around p l id rest hk).2, hnode] at hvisit
  rw [Branch.expandWithin, Branch.clonedWithin]
  by_cases hb : b.isExhausted
  · -- A spent budget removes the sibling without a further look at it.
    rw [if_pos hb] at hvisit
    rw [if_pos hb, if_pos hb]
    exact ⟨_, [], hvisit.mono (by omega), h.replaced_remove hk, rfl, Tree.size_remove t id⟩
  rw [if_neg hb] at hvisit
  rw [if_neg hb, if_neg hb]
  cases hr : node.pendingRepeat with
  | some s =>
      -- The sibling is the original of its copies.
      rw [hr] at hvisit
      have hcopies := Work.Reaches.step t b (.siblings rest.head? :: stack) (.copies id s 0 none)
      obtain ⟨t', new, hrun, hdone⟩ := delivers_copies hsim s.copies 0 (Nat.zero_add _) b h hk hid
      refine ⟨t', new, (hvisit.trans (hcopies.trans hrun)).mono ?_, hdone⟩
      simp only [multiplicity, hr]
      omega
  | none =>
      -- The sibling keeps its place, and its children are unrolled below it.
      rw [hr] at hvisit
      have hg := hplain hb hr
      simp only [hg, Bool.false_eq_true, if_false, h.spells.first id] at hvisit ⊢
      obtain ⟨t', new, hrun, hin, hnew, hsize⟩ := hsim t id [] (t.children id) b.spend
        (.siblings rest.head? :: stack) h rfl hkids
      obtain ⟨hnest, hbranch'⟩ := hin.nested hk
      refine ⟨t', [id], (hvisit.trans hrun).mono ?_, hnest, ?_, hsize⟩
      · simp only [multiplicity, hr]
        omega
      · rw [List.map_singleton, hbranch', hnode, hnew]

/-- A sibling is gone through, and then those behind it; a group without a repeat gives way to its
children before that. -/
theorem simulated_cons {node : Node} {children bs : Forest} (hchildren : Simulated children)
    (hbs : Simulated bs) (hboth : Simulated (children ++ bs)) :
    Simulated (.mk node children :: bs) := by
  intro t p l todo b stack h hk hf
  obtain ⟨id, rest, rfl, hid, hrest⟩ := List.map_eq_cons_iff.1 hf
  rw [Forest.steps_cons, Forest.expandWithin, Forest.clonedWithin]
  by_cases hplain : ¬b.isExhausted → node.pendingRepeat = none → ¬node.isGroup
  · have hone := delivers_sibling hchildren b stack h hk hid hplain
    exact (hone.siblings hbs hrest).mono (Forest.steps_copies_le _ _ _)
  · -- A group that asks for no copies gives its place to its children, which are gone through next.
    simp only [Classical.not_imp, Decidable.not_not] at hplain
    obtain ⟨hb, hr, hg⟩ := hplain
    rw [h.branch_eq id, Branch.mk.injEq] at hid
    obtain ⟨hnode, hkids⟩ := hid
    have hvisit := Work.Reaches.step t b stack (.siblings (some id))
    rw [Work.step, visitSibling] at hvisit
    simp only [(h.spells.around p l id rest hk).2, hnode, hr, hg, hb, Bool.false_eq_true, if_false,
      if_true] at hvisit
    obtain ⟨hsplice, hsame⟩ := h.replaced_splice hk
    have hsplice' : t.Replaced (t.splice id).1 p l (id :: rest) (t.children id ++ rest) [] := by
      rw [← List.append_nil rest] at hsplice
      exact hsplice.widenRight
    obtain ⟨t', new, hrun, hdone, hnew, hsize⟩ :=
      hboth (t.splice id).1 p l (t.children id ++ rest) b stack
        hsplice.sound' (by rw [hsplice'.children', List.append_nil])
        (by rw [List.map_append, hsame, hkids, hsplice.map_branch_right, hrest])
    have hhead : (t.children id ++ rest).head? = (t.splice id).2.head?.or rest.head? :=
      List.head?_append
    rw [hhead] at hrun
    have hresult : (Branch.mk node children).expandWithin b = Forest.expandWithin children b := by
      simp [Branch.expandWithin, hb, hr, hg]
    have hcloned : (Branch.mk node children).clonedWithin b = Forest.clonedWithin children b := by
      simp [Branch.clonedWithin, hb, hr, hg]
    rw [Forest.expandWithin_append] at hrun hnew
    rw [Forest.clonedWithin_append, Tree.size_splice] at hsize
    rw [hresult, hcloned]
    refine ⟨t', new, (hvisit.trans hrun).mono ?_, hsplice'.trans hdone, hnew, hsize⟩
    have hm : multiplicity node = 1 := by simp [multiplicity, hr]
    rw [hm, Nat.max_self, Nat.one_mul]
    omega

/-- **The loop simulates the recursion** on every forest. -/
theorem simulated (f : Forest) : Simulated f := by
  suffices h : ∀ n f, Forest.size f ≤ n → Simulated f from h _ f (Nat.le_refl _)
  intro n
  induction n with
  | zero =>
      intro f hf
      cases f with
      | nil => exact simulated_nil
      | cons b bs =>
          obtain ⟨node, children⟩ := b
          simp only [Forest.size, Branch.size] at hf
          omega
  | succ n ih =>
      intro f hf
      cases f with
      | nil => exact simulated_nil
      | cons b bs =>
          obtain ⟨node, children⟩ := b
          simp only [Forest.size, Branch.size] at hf
          refine simulated_cons (ih _ (by omega)) (ih _ (by omega)) (ih _ ?_)
          rw [Forest.size_append]
          omega

/-- **The loop ends**, and what it ends with is what the recursion gives. -/
theorem run_eq {t : Tree} (h : t.Sound) (id : NodeId) (b : Budget) :
    ∃ t' new, (∀ fuel, Forest.steps (t.forestBelow id) ≤ fuel →
        Work.run fuel ⟨t, b, [.siblings (t.firstChild id)]⟩ =
          ⟨t', (Forest.expandWithin (t.forestBelow id) b).2, []⟩) ∧
      t.Replaced t' id [] (t.children id) new [] ∧
      t'.forestBelow id = (Forest.expandWithin (t.forestBelow id) b).1 ∧
      t'.size = t.size + Forest.clonedWithin (t.forestBelow id) b := by
  obtain ⟨t', new, hrun, hdone, hnew, hsize⟩ := simulated (t.forestBelow id) t id [] (t.children id) b []
    h rfl (h.forestBelow_eq id).symm
  refine ⟨t', new, fun fuel hfuel => ?_, hdone, ?_, hsize⟩
  · rw [h.spells.first id]
    exact hrun.run_eq hfuel
  · rw [hdone.sound'.forestBelow_eq, hdone.children', ← hnew]
    simp

/-- The steps that the loop is granted are enough for it. -/
theorem unrolling_eq {t : Tree} (h : t.Sound) (id : NodeId) (b : Budget) {w : Work}
    (hrun : ∀ fuel, Forest.steps (t.forestBelow id) ≤ fuel →
      Work.run fuel ⟨t, b, [.siblings (t.firstChild id)]⟩ = w) : unrolling t id b = w := by
  refine hrun _ ?_
  have hbound : Forest.steps (t.forestBelow id) =
      workBound ((t.descendants id).map fun entry => t.node entry.1) := by
    rw [Forest.steps, Forest.nodes, ← h.map_descendants, List.map_map]
    rfl
  exact hbound ▸ Tree.le_grantedSteps _

end Expansion

end Shorthand
