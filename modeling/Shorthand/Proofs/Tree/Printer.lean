import Shorthand.Proofs.Tree.Builder
import Shorthand.Proofs.Tree.Preorder
import Shorthand.Tree.Printer

/-!
# The stack of steps writes what the recursion does

Every step stands for a text, and so does a stack of them. Taking a step writes the front of that
text and leaves a stack for the rest of it, which is cheaper: a node costs at most seven steps with
what is around it. A stack is therefore used up after finitely many steps (`Drains`), the steps
granted are enough, and what is written is the abbreviation of the forest.
-/

namespace Shorthand.Tree

variable {t : Tree}

/-- The text that a step stands for. -/
def stepText (t : Tree) (stamps : Bool) : Step → String
  | .node id => (t.branch id).render stamps
  | .children id => Forest.render stamps (t.forestBelow id)
  | .repeats r => r.write stamps
  | .text content => content

/-- The text that a stack of steps stands for. -/
def stackText (t : Tree) (stamps : Bool) : List Step → String
  | [] => ""
  | step :: steps => t.stepText stamps step ++ t.stackText stamps steps

/-- How many steps a step leads to at most, itself included. A node among siblings may have two
parentheses and a `+` around it, which its own cost leaves room for. -/
def stepCost (t : Tree) : Step → Nat
  | .node id => 7 * (t.branch id).size - 3
  | .children id => 7 * Forest.size (t.forestBelow id) + 1
  | .repeats _ => 1
  | .text _ => 1

/-- How many steps a stack leads to at most. -/
def stackCost (t : Tree) : List Step → Nat
  | [] => 0
  | step :: steps => t.stepCost step + t.stackCost steps

/-! ### Siblings -/

theorem Sound.hasChildren_eq (h : t.Sound) (id : NodeId) :
    t.hasChildren id = !(t.children id).isEmpty := by
  rw [hasChildren, h.spells.first id]
  cases t.children id <;> rfl

theorem Sound.needsParens_eq (h : t.Sound) (id : NodeId) :
    t.needsParens id = (t.branch id).needsParens := by
  rw [needsParens, h.hasChildren_eq, h.branch_eq]
  simp [Branch.needsParens, Branch.node, Branch.children]

theorem Sound.stackText_joinStep (h : t.Sound) (stamps : Bool) {steps : List Step} {b : Branch}
    {bs : Forest} {rest : String}
    (hsteps : t.stackText stamps steps = Forest.render stamps (b :: bs) ++ rest) (id : NodeId) :
    t.stackText stamps (t.joinStep steps id) =
      Forest.render stamps (t.branch id :: b :: bs) ++ rest := by
  rw [joinStep, h.needsParens_eq, Forest.render_cons_cons]
  cases (t.branch id).needsParens with
  | false =>
      simp only [Bool.false_eq_true, if_false, stackText, stepText, hsteps, String.append_assoc]
  | true => simp only [if_true, stackText, stepText, hsteps, String.append_assoc]

theorem Sound.stackText_foldl_joinStep (h : t.Sound) (stamps : Bool) {rest : String}
    (ids : List NodeId) : ∀ {steps : List Step} {b : Branch} {bs : Forest},
      t.stackText stamps steps = Forest.render stamps (b :: bs) ++ rest →
      t.stackText stamps (ids.foldl t.joinStep steps) =
        Forest.render stamps (ids.reverse.map t.branch ++ b :: bs) ++ rest := by
  induction ids with
  | nil =>
      intro steps b bs hsteps
      simpa using hsteps
  | cons id ids ih =>
      intro steps b bs hsteps
      have hall := ih (h.stackText_joinStep stamps hsteps id)
      simpa using hall

/-- The steps for siblings stand for the forest of the siblings. -/
theorem Sound.stackText_siblingSteps (h : t.Sound) (stamps : Bool) (steps : List Step)
    (ids : List NodeId) :
    t.stackText stamps (t.siblingSteps steps ids) =
      Forest.render stamps (ids.reverse.map t.branch) ++ t.stackText stamps steps := by
  cases ids with
  | nil => simp [siblingSteps, Forest.render]
  | cons last others =>
      have hlast : t.stackText stamps (.node last :: steps) =
          Forest.render stamps [t.branch last] ++ t.stackText stamps steps := by
        rw [Forest.render]
        rfl
      simpa [siblingSteps] using h.stackText_foldl_joinStep stamps others hlast

theorem stackCost_joinStep (t : Tree) (steps : List Step) (id : NodeId) :
    t.stackCost (t.joinStep steps id) ≤ 7 * (t.branch id).size + t.stackCost steps := by
  have hpos : 0 < (t.branch id).size := by
    cases t.branch id
    simp [Branch.size]
  rw [joinStep]
  split
  · simp only [stackCost, stepCost]
    omega
  · simp only [stackCost, stepCost]
    omega

theorem stackCost_foldl_joinStep (t : Tree) (ids : List NodeId) (steps : List Step) :
    t.stackCost (ids.foldl t.joinStep steps) ≤
      7 * Forest.size (ids.map t.branch) + t.stackCost steps := by
  induction ids generalizing steps with
  | nil => simp [Forest.size]
  | cons id ids ih =>
      have hstep := t.stackCost_joinStep steps id
      have hrest := ih (t.joinStep steps id)
      simp only [List.foldl_cons, List.map_cons, Forest.size]
      omega

theorem stackCost_siblingSteps (t : Tree) (steps : List Step) (ids : List NodeId) :
    t.stackCost (t.siblingSteps steps ids) ≤
      7 * Forest.size (ids.map t.branch) + t.stackCost steps := by
  cases ids with
  | nil => simp [siblingSteps]
  | cons last others =>
      have hothers := t.stackCost_foldl_joinStep others (.node last :: steps)
      simp only [siblingSteps, List.map_cons, Forest.size, stackCost, stepCost] at hothers ⊢
      omega

/-! ### One step, and all of them -/

/-- The step writes the front of the text of its stack, and the stack that it leaves is cheaper. -/
def Advances (t : Tree) (stamps : Bool) (step : Step) (steps : List Step) : Prop :=
  (t.takeStep stamps steps step).1 ++ t.stackText stamps (t.takeStep stamps steps step).2 =
      t.stackText stamps (step :: steps) ∧
    t.stackCost (t.takeStep stamps steps step).2 < t.stackCost (step :: steps)

theorem Sound.advances_children (h : t.Sound) (stamps : Bool) (id : NodeId) (steps : List Step) :
    t.Advances stamps (.children id) steps := by
  have htext := h.stackText_siblingSteps stamps steps (t.children id).reverse
  have hcost := t.stackCost_siblingSteps steps (t.children id).reverse
  rw [List.reverse_reverse, ← h.forestBelow_eq] at htext
  rw [List.map_reverse, Forest.size_reverse, ← h.forestBelow_eq] at hcost
  refine ⟨?_, ?_⟩
  · simp only [takeStep, stackText, stepText, htext, String.empty_append]
  · simp only [takeStep, stackCost, stepCost]
    omega

theorem Sound.size_branch (h : t.Sound) (id : NodeId) :
    (t.branch id).size = Forest.size (t.forestBelow id) + 1 := by
  rw [h.forestBelow_eq, h.branch_eq, Branch.size]

theorem Sound.advances_group (h : t.Sound) (stamps : Bool) {id : NodeId}
    (hgroup : (t.node id).isGroup = true) (steps : List Step) : t.Advances stamps (.node id) steps := by
  have hsize := h.size_branch id
  have hrender := congrArg (Branch.render stamps) (h.branch_eq id)
  rw [← h.forestBelow_eq, Branch.render, if_pos hgroup] at hrender
  rw [Advances, takeStep]
  simp only [hgroup, if_true]
  cases hrepeats : (t.node id).repeats with
  | none =>
      simp only [hrepeats] at hrender
      refine ⟨?_, ?_⟩
      · simp only [stackText, stepText, hrender, String.append_assoc, String.empty_append]
      · simp only [stackCost, stepCost]
        omega
  | some r =>
      simp only [hrepeats] at hrender
      refine ⟨?_, ?_⟩
      · simp only [stackText, stepText, hrender, String.append_assoc]
      · simp only [stackCost, stepCost]
        omega

theorem Sound.advances_element (h : t.Sound) (stamps : Bool) {id : NodeId}
    (hgroup : ¬(t.node id).isGroup = true) (steps : List Step) :
    t.Advances stamps (.node id) steps := by
  have hsize := h.size_branch id
  have hempty : (t.forestBelow id).isEmpty = (t.children id).isEmpty := by
    rw [h.forestBelow_eq, List.isEmpty_map]
  have hrender := congrArg (Branch.render stamps) (h.branch_eq id)
  rw [← h.forestBelow_eq, Branch.render, if_neg hgroup, hempty] at hrender
  rw [Advances, takeStep]
  simp only [hgroup, Bool.false_eq_true, if_false, h.hasChildren_eq]
  cases hchildren : (t.children id).isEmpty with
  | true =>
      simp only [hchildren, if_true] at hrender
      refine ⟨?_, ?_⟩
      · simp [stackText, stepText, hrender]
      · simp only [Bool.not_true, Bool.false_eq_true, if_false, stackCost, stepCost]
        omega
  | false =>
      simp only [hchildren, Bool.false_eq_true, if_false] at hrender
      refine ⟨?_, ?_⟩
      · simp [stackText, stepText, hrender, String.append_assoc]
      · simp only [Bool.not_false, if_true, stackCost, stepCost]
        omega

theorem Sound.advances (h : t.Sound) (stamps : Bool) (step : Step) (steps : List Step) :
    t.Advances stamps step steps := by
  cases step with
  | text content => simp [Advances, takeStep, stackText, stepText, stackCost, stepCost]
  | repeats r => simp [Advances, takeStep, stackText, stepText, stackCost, stepCost]
  | children id => exact h.advances_children stamps id steps
  | node id =>
      by_cases hgroup : (t.node id).isGroup = true
      · exact h.advances_group stamps hgroup steps
      · exact h.advances_element stamps hgroup steps

/-- Taking `count` steps uses up the stack, and `text` is written then, of which `done` was there
before. -/
inductive Drains (t : Tree) (stamps : Bool) :
    (count : Nat) → (done : String) → List Step → (text : String) → Prop where
  | nil (text : String) : Drains t stamps 0 text [] text
  | cons {count : Nat} {done text : String} {step : Step} {steps : List Step}
      (h : Drains t stamps count (done ++ (t.takeStep stamps steps step).1)
        (t.takeStep stamps steps step).2 text) :
      Drains t stamps (count + 1) done (step :: steps) text

/-- A stack that can be used up is, and what more steps might be taken does not matter. -/
theorem Drains.writeSteps_eq {stamps : Bool} {count fuel : Nat} {done text : String}
    {steps : List Step} (h : t.Drains stamps count done steps text) (hle : count ≤ fuel) :
    t.writeSteps stamps fuel done steps = text := by
  induction h generalizing fuel with
  | nil text => cases fuel <;> rfl
  | cons _ ih =>
      obtain ⟨fuel, rfl⟩ := Nat.exists_eq_add_of_le' (Nat.le_of_add_left_le hle)
      rw [writeSteps]
      exact ih (Nat.le_of_succ_le_succ hle)

/-- **Every stack drains** in no more steps than it costs, and what it stands for is written then. -/
theorem Sound.drains (h : t.Sound) (stamps : Bool) (done : String) (steps : List Step) :
    ∃ count ≤ t.stackCost steps, t.Drains stamps count done steps (done ++ t.stackText stamps steps) := by
  -- A step may put many others on the stack, so it is the cost that goes down.
  induction hcost : t.stackCost steps using Nat.strongRecOn generalizing done steps with
  | ind cost ih =>
      cases steps with
      | nil =>
          rw [stackText, String.append_empty]
          exact ⟨0, Nat.zero_le _, .nil done⟩
      | cons step steps =>
          obtain ⟨htext, hlt⟩ := h.advances stamps step steps
          obtain ⟨count, hle, hdrains⟩ := ih _ (hcost ▸ hlt)
            (done ++ (t.takeStep stamps steps step).1) (t.takeStep stamps steps step).2 rfl
          rw [String.append_assoc, htext] at hdrains
          exact ⟨count + 1, by omega, .cons hdrains⟩

/-- With as many steps as it costs, the text of a stack is written. -/
theorem Sound.writeSteps_eq (h : t.Sound) (stamps : Bool) (fuel : Nat) (done : String)
    (steps : List Step) (hcost : t.stackCost steps ≤ fuel) :
    t.writeSteps stamps fuel done steps = done ++ t.stackText stamps steps := by
  obtain ⟨count, hle, hdrains⟩ := h.drains stamps done steps
  exact hdrains.writeSteps_eq (Nat.le_trans hle hcost)

/-- The steps granted are enough for every node. -/
theorem Sound.size_branch_le_stepBound (h : t.Sound) (id : NodeId) :
    7 * (t.branch id).size ≤ t.stepBound := by
  by_cases hid : id.index < t.size
  · have hsize := h.size_branch_le hid
    refine Nat.le_trans ?_ (le_grantedSteps _)
    omega
  · have hnil : t.children id = [] := h.children_eq_nil (Nat.le_of_not_lt hid)
    have hone : (t.branch id).size = 1 := by
      rw [h.branch_eq, hnil]
      rfl
    rw [hone]
    exact Nat.le_trans (by decide) (Nat.le_max_right _ _)

/-- **A tree is written as its forest is.** -/
theorem Sound.write_eq (h : t.Sound) (stamps : Bool) :
    t.write stamps = Forest.render stamps t.forest := by
  have hbound := h.size_branch_le_stepBound t.root
  have hsize := h.size_branch t.root
  rw [write, h.writeSteps_eq stamps]
  · simp [stackText, stepText, forest]
  · simp only [stackCost, stepCost]
    omega

/-- A node is written as its branch is. -/
theorem Sound.writeNode_eq (h : t.Sound) (id : NodeId) (stamps : Bool) :
    t.writeNode id stamps = (t.branch id).render stamps := by
  have hbound := h.size_branch_le_stepBound id
  rw [writeNode, h.writeSteps_eq stamps]
  · simp [stackText, stepText]
  · simp only [stackCost, stepCost]
    omega

/-- **The stack of steps writes what the recursion over branches does.** On every node, and on the
children of the root, the steps come to an end. Then the branch is written, or the forest: a group
in parentheses with its repeat behind it, another node with its children behind it if it has any,
and `+` between siblings, with parentheses around one that others follow if it has children and is
no group. -/
theorem steps_write_branches (t : Tree) (hcoherent : t.Coherent) (hacyclic : t.Acyclic)
    (stamps : Bool) :
    (∀ id, t.branch id = .mk (t.node id) ((t.children id).map t.branch)) ∧
      (∀ id, (∃ count, t.Drains stamps count "" [.node id] ((t.branch id).render stamps)) ∧
        t.writeNode id stamps = (t.branch id).render stamps) ∧
      (∃ count, t.Drains stamps count "" [.children t.root]
        (Forest.render stamps ((t.children t.root).map t.branch))) ∧
      t.write stamps = Forest.render stamps ((t.children t.root).map t.branch) := by
  have h : t.Sound := ⟨hcoherent, hacyclic⟩
  refine ⟨h.branch_eq, fun id => ⟨?_, h.writeNode_eq id stamps⟩, ?_, ?_⟩
  · obtain ⟨count, -, hdrains⟩ := h.drains stamps "" [.node id]
    exact ⟨count, by simpa [stackText, stepText] using hdrains⟩
  · obtain ⟨count, -, hdrains⟩ := h.drains stamps "" [.children t.root]
    rw [← h.forestBelow_eq]
    exact ⟨count, by simpa [stackText, stepText] using hdrains⟩
  · rw [h.write_eq, h.forest_eq]

/-- Of the siblings, `b` and `e` have children and others behind them; the group has a repeat. -/
theorem steps_write_branches_nested : ∃ t, Tree.parse "(a>b>c^d)*2+e>f^g*3" = .ok t ∧
    t.Coherent ∧ t.Acyclic ∧ t.write true = "(a>(b>c)+d)*2+(e>f)+g*3" ∧
      (∃ count, t.Drains true count "" [.children t.root] "(a>(b>c)+d)*2+(e>f)+g*3") ∧
      ∃ count, t.Drains true count "" [.node ⟨2⟩] "a>(b>c)+d" := by
  obtain ⟨t, hparse, hresult⟩ : ∃ t, Tree.parse "(a>b>c^d)*2+e>f^g*3" = .ok t ∧
      (Forest.render true ((t.children t.root).map t.branch), (t.branch ⟨2⟩).render true) =
        ("(a>(b>c)+d)*2+(e>f)+g*3", "a>(b>c)+d") :=
    Tree.exists_parse_of_map (by decide +kernel)
  obtain ⟨hroot, hinner⟩ := Prod.mk.inj hresult
  have h := (Tree.parse_ok hparse).1
  obtain ⟨-, hnode, hends, hwrite⟩ := steps_write_branches t h.coherent h.acyclic true
  rw [hroot] at hends hwrite
  exact ⟨t, hparse, h.coherent, h.acyclic, hwrite, hends, hinner ▸ (hnode ⟨2⟩).1⟩

end Shorthand.Tree
