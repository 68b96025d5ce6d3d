import Shorthand.Expansion
import Shorthand.Proofs.Tree.Replaced
import Shorthand.Proofs.Tree.Script

/-!
# The edits of an unrolling

Unrolling plays a script too: each step of the loop makes the edits of `stepScript`, and the loop
those of its steps (`run_eq_play`). A step names nodes of the tree only, as long as its frames do,
and never puts a node below itself: what it puts in front of a node is a new copy, or a child of
that node (`along_run`). Nothing here asks for the loop to come to an end, or for the tree to have
no cycle.
-/

namespace Shorthand

namespace Tree

variable {t : Tree}

theorem Coherent.firstChild_lt (h : t.Coherent) {p c : NodeId} (hc : t.firstChild p = some c) :
    c.index < t.size := by
  rw [h.spells.first p] at hc
  exact (h.spells.inside p c (List.mem_of_head? hc)).1

theorem Coherent.next_lt (h : t.Coherent) {id n : NodeId} (hn : t.next id = some n) :
    n.index < t.size := by
  cases hp : t.parent id with
  | none =>
      rw [(h.detached id hp).2] at hn
      exact absurd hn (by simp)
  | some p =>
      obtain ⟨l, r, hk⟩ := List.append_of_mem ((h.spells.parent_iff id p).1 hp)
      rw [(h.spells.around p l id r hk).2] at hn
      exact (h.spells.inside p n (by simp [hk, List.mem_of_head? hn])).1

end Tree

namespace Expansion

open Shorthand.Tree

variable {t t' : Tree}

/-! ### Scripts -/

/-- The edits that settle a copy. -/
def settleScript (t : Tree) (copy : NodeId) (stamp : Repeat) (truncated : Bool) : List Edit :=
  if truncated then [.remove copy]
  else if (t.node copy).isGroup then
    t.spliceScript copy ++
      (t.children copy).map fun child => .modifyNode child fun n => { n with repeats := some stamp }
  else []

/-- The edits on the way past a sibling. -/
def siblingScript (t : Tree) (budget : Budget) (id : NodeId) : List Edit :=
  if budget.isExhausted then [.remove id]
  else
    match (t.node id).pendingRepeat with
    | some _ => []
    | none => if (t.node id).isGroup then t.spliceScript id else []

/-- The edits for the next copy. -/
def copiesScript (t : Tree) (budget : Budget) (template : NodeId) (r : Repeat) (made : Nat) :
    List Edit :=
  if made = r.copies then [.remove template]
  else if budget.isExhausted then [.remove template]
  else
    t.copyTreeScript template ++
      [.modifyNode t.nextId fun n => { n with repeats := some ⟨r.count, some (made + 1)⟩ },
        .insertBefore t.nextId template]

/-- The edits of one step. -/
def stepScript (t : Tree) (budget : Budget) : Frame → List Edit
  | .siblings none => []
  | .siblings (some id) => siblingScript t budget id
  | .copies template r made none => copiesScript t budget template r made
  | .copies template r made (some copy) =>
    let stamp := { count := r.count, copy := some made }
    settleScript t copy stamp budget.truncated ++
      copiesScript (settle t copy stamp budget.truncated) budget template r made

/-- The edits of a run. -/
def runScript : (fuel : Nat) → Work → List Edit
  | 0, _ => []
  | _ + 1, ⟨_, _, []⟩ => []
  | fuel + 1, ⟨t, budget, frame :: stack⟩ =>
    stepScript t budget frame ++ runScript fuel (Work.step t budget stack frame)

/-- The edits of an expansion. -/
def unrollScript (limit : Option Nat) (t : Tree) : List Edit :=
  let bound := workBound ((t.descendants t.root).map fun entry => t.node entry.1)
  runScript (grantedSteps bound) ⟨t, .ofLimit limit, [.siblings (t.firstChild t.root)]⟩

/-! ### Playing them -/

theorem settle_eq_play (t : Tree) (copy : NodeId) (stamp : Repeat) (truncated : Bool) :
    settle t copy stamp truncated = t.play (settleScript t copy stamp truncated) := by
  unfold settle settleScript
  split
  · rfl
  · split
    · rw [play_append, ← splice_eq_play, play, List.foldl_map]
      rfl
    · rfl

theorem sibling_eq_play (t : Tree) (budget : Budget) (stack : List Frame) (id : NodeId) :
    (visitSibling t budget stack id).tree = t.play (siblingScript t budget id) := by
  unfold visitSibling siblingScript
  split
  · rfl
  · cases (t.node id).pendingRepeat with
    | some r => rfl
    | none =>
        dsimp only
        split
        · rw [← splice_eq_play]
        · rfl

theorem copies_eq_play (t : Tree) (budget : Budget) (stack : List Frame) (template : NodeId)
    (r : Repeat) (made : Nat) :
    (visitCopies t budget stack template r made).tree =
      t.play (copiesScript t budget template r made) := by
  unfold visitCopies copiesScript
  split
  · rfl
  · split
    · rfl
    · rw [play_append, ← copyTree_eq_play]
      rfl

theorem step_eq_play (t : Tree) (budget : Budget) (stack : List Frame) (frame : Frame) :
    (Work.step t budget stack frame).tree = t.play (stepScript t budget frame) := by
  match frame with
  | .siblings none => rfl
  | .siblings (some id) => exact sibling_eq_play t budget stack id
  | .copies template r made none => exact copies_eq_play t budget stack template r made
  | .copies template r made (some copy) =>
      rw [stepScript, play_append, ← settle_eq_play]
      exact copies_eq_play _ budget stack template r made

/-- **A run plays the edits of its steps.** -/
theorem run_eq_play (fuel : Nat) (work : Work) :
    (Work.run fuel work).tree = work.tree.play (runScript fuel work) := by
  induction fuel generalizing work with
  | zero => rfl
  | succ fuel ih =>
      obtain ⟨t, budget, stack⟩ := work
      cases stack with
      | nil => rfl
      | cons frame stack => rw [Work.run, ih, runScript, play_append, step_eq_play]

theorem unrollWithin_eq_play (limit : Option Nat) (t : Tree) :
    (unrollWithin limit t).1 = t.play (unrollScript limit t) :=
  run_eq_play _ _

/-! ### What they ask for -/

/-- The frame names nodes of the tree only. -/
def Frame.Inside (t : Tree) : Frame → Prop
  | .siblings next => ∀ id, next = some id → id.index < t.size
  | .copies template _ _ current =>
    template.index < t.size ∧ ∀ copy, current = some copy → copy.index < t.size

theorem Frame.Inside.mono {frame : Frame} (h : frame.Inside t) (hle : t.size ≤ t'.size) :
    frame.Inside t' := by
  cases frame with
  | siblings next => exact fun id hid => Nat.lt_of_lt_of_le (h id hid) hle
  | copies template r made current =>
      exact ⟨Nat.lt_of_lt_of_le h.1 hle, fun copy hc => Nat.lt_of_lt_of_le (h.2 copy hc) hle⟩

theorem Frame.inside_firstChild (h : t.Coherent) (id : NodeId) :
    (Frame.siblings (t.firstChild id)).Inside t :=
  fun _ hc => h.firstChild_lt hc

theorem along_settle (h : t.Coherent) {copy : NodeId} (hcopy : copy.index < t.size) (stamp : Repeat)
    (truncated : Bool) : Along Edit.apply Edit.Fits t (settleScript t copy stamp truncated) := by
  unfold settleScript
  split
  · exact ⟨Edit.fits_remove hcopy, trivial⟩
  · split
    · refine along_play_append.2 ⟨h.along_splice hcopy, along_map_fits ?_ fun c hc => ?_⟩
      · exact fun t id hid => Edit.fits_modifyNode hid _
      · exact Nat.lt_of_lt_of_le (h.spells.inside copy c hc).1 (size_le_play t _)
    · trivial

theorem along_sibling (h : t.Coherent) (budget : Budget) {id : NodeId} (hid : id.index < t.size) :
    Along Edit.apply Edit.Fits t (siblingScript t budget id) := by
  unfold siblingScript
  split
  · exact ⟨Edit.fits_remove hid, trivial⟩
  · split
    · trivial
    · split
      · exact h.along_splice hid
      · trivial

theorem along_copies (h : t.Coherent) (budget : Budget) {template : NodeId}
    (htemplate : template.index < t.size) (r : Repeat) (made : Nat) :
    Along Edit.apply Edit.Fits t (copiesScript t budget template r made) := by
  unfold copiesScript
  split
  · exact ⟨Edit.fits_remove htemplate, trivial⟩
  · split
    · exact ⟨Edit.fits_remove htemplate, trivial⟩
    · obtain ⟨hcopy, hold⟩ := h.along_copyTree template
      have hnew := nextId_lt_copyTree t template
      have hgrow : t.size ≤ (t.copyTree template).size := Nat.le_of_lt hnew
      refine along_play_append.2 ⟨hcopy, ?_⟩
      rw [← copyTree_eq_play]
      refine ⟨Edit.fits_modifyNode hnew _, ⟨⟨?_, ?_⟩, fun _ p hp hb => ?_⟩, trivial⟩
      · simpa [Edit.apply] using hnew
      · simpa [Edit.apply] using Nat.lt_of_lt_of_le htemplate hgrow
      · -- What is below the copy is new, and the parent of the template is not.
        have hparent : ∀ x, x.index < t.size → ((Edit.modifyNode t.nextId fun n =>
            { n with repeats := some ⟨r.count, some (made + 1)⟩ }).apply
              (t.copyTree template)).parent x = t.parent x := by
          intro x hx
          rw [← hold x hx, Edit.apply, Tree.parent, links_modifyNode, ← Tree.parent]
        rw [hparent template htemplate] at hp
        have hle := h.not_below_of_size_le hparent (Nat.le_refl t.size) hb
        exact absurd (h.parent _ _ hp) (Nat.not_lt.2 hle)

theorem along_step (h : t.Coherent) (budget : Budget) {frame : Frame} (hframe : frame.Inside t) :
    Along Edit.apply Edit.Fits t (stepScript t budget frame) := by
  match frame, hframe with
  | .siblings none, _ => trivial
  | .siblings (some id), hid => exact along_sibling h budget (hid id rfl)
  | .copies template r made none, hin => exact along_copies h budget hin.1 r made
  | .copies template r made (some copy), hin =>
      have hsettle := along_settle h (hin.2 copy rfl) ⟨r.count, some made⟩ budget.truncated
      have hcoherent := h.play hsettle
      have hgrow := size_le_play t (settleScript t copy ⟨r.count, some made⟩ budget.truncated)
      refine along_play_append.2 ⟨hsettle, ?_⟩
      rw [← settle_eq_play] at hcoherent hgrow ⊢
      exact along_copies hcoherent budget (Nat.lt_of_lt_of_le hin.1 hgrow) r made

/-- The frames that a step puts on the stack name nodes of the tree that it leaves. -/
def Pushes (stack : List Frame) (work : Work) : Prop :=
  ∃ frames, work.stack = frames ++ stack ∧ ∀ frame ∈ frames, frame.Inside work.tree

/-- What comes next is a sibling, a child, or what has taken the place of a dissolved group. -/
theorem pushes_sibling (h : t.Coherent) (budget : Budget) (stack : List Frame) {id : NodeId}
    (hid : id.index < t.size) :
    Pushes stack (visitSibling t budget stack id) := by
  have hnext : (Frame.siblings (t.next id)).Inside t := fun _ hn => h.next_lt hn
  unfold visitSibling
  split
  · refine ⟨[.siblings (t.next id)], rfl, ?_⟩
    rw [List.forall_mem_singleton]
    exact hnext.mono (by simp)
  · cases (t.node id).pendingRepeat with
    | some r =>
        refine ⟨[.copies id r 0 none, .siblings (t.next id)], rfl, ?_⟩
        simpa using ⟨⟨hid, by simp⟩, hnext⟩
    | none =>
        dsimp only
        split
        · refine ⟨[.siblings ((t.splice id).2.head?.or (t.next id))], rfl, ?_⟩
          rw [List.forall_mem_singleton]
          intro x hx
          rw [size_splice]
          cases hhead : (t.splice id).2.head? with
          | none =>
              rw [hhead, Option.none_or] at hx
              exact h.next_lt hx
          | some c =>
              rw [hhead, Option.some_or] at hx
              obtain rfl := Option.some.inj hx
              exact (h.spells.inside id c (List.mem_of_head? hhead)).1
        · refine ⟨[.siblings (t.firstChild id), .siblings (t.next id)], rfl, ?_⟩
          simpa using ⟨Frame.inside_firstChild h id, hnext⟩

theorem pushes_copies (h : t.Coherent) (budget : Budget) (stack : List Frame) {template : NodeId}
    (htemplate : template.index < t.size) (r : Repeat) (made : Nat) :
    Pushes stack (visitCopies t budget stack template r made) := by
  have hcoherent := h.play (along_copies h budget htemplate r made)
  have hgrow := size_le_play t (copiesScript t budget template r made)
  rw [← copies_eq_play t budget stack] at hcoherent hgrow
  revert hcoherent hgrow
  unfold visitCopies
  split
  · exact fun _ _ => ⟨[], rfl, by simp⟩
  · split
    · exact fun _ _ => ⟨[], rfl, by simp⟩
    · intro hcoherent hgrow
      refine ⟨[_, _], rfl, ?_⟩
      rw [List.forall_mem_cons, List.forall_mem_singleton]
      refine ⟨Frame.inside_firstChild hcoherent t.nextId, Nat.lt_of_lt_of_le htemplate hgrow, ?_⟩
      intro copy hc
      obtain rfl := Option.some.inj hc
      simpa [setRepeat] using nextId_lt_copyTree t template

theorem pushes_step (h : t.Coherent) (budget : Budget) (stack : List Frame) {frame : Frame}
    (hframe : frame.Inside t) :
    Pushes stack (Work.step t budget stack frame) := by
  match frame, hframe with
  | .siblings none, _ => exact ⟨[], rfl, by simp⟩
  | .siblings (some id), hid => exact pushes_sibling h budget stack (hid id rfl)
  | .copies template r made none, hin => exact pushes_copies h budget stack hin.1 r made
  | .copies template r made (some copy), hin =>
      have hsettle := along_settle h (hin.2 copy rfl) ⟨r.count, some made⟩ budget.truncated
      have hcoherent := h.play hsettle
      have hgrow := size_le_play t (settleScript t copy ⟨r.count, some made⟩ budget.truncated)
      rw [← settle_eq_play] at hcoherent hgrow
      exact pushes_copies hcoherent budget stack (Nat.lt_of_lt_of_le hin.1 hgrow) r made

theorem inside_step (h : t.Coherent) (budget : Budget) {stack : List Frame} {frame : Frame}
    (hframe : frame.Inside t) (hstack : ∀ f ∈ stack, f.Inside t) :
    ∀ f ∈ (Work.step t budget stack frame).stack, f.Inside (Work.step t budget stack frame).tree := by
  obtain ⟨frames, hframes, hnew⟩ := pushes_step h budget stack hframe
  intro f hf
  rw [hframes, List.mem_append] at hf
  rcases hf with hf | hf
  · exact hnew f hf
  · exact (hstack f hf).mono (by rw [step_eq_play]; exact size_le_play t _)

/-- **A run never asks for a node to be put below itself,** however long it is. -/
theorem along_run (fuel : Nat) (work : Work) (h : work.tree.Coherent)
    (hstack : ∀ frame ∈ work.stack, frame.Inside work.tree) :
    Along Edit.apply Edit.Fits work.tree (runScript fuel work) := by
  induction fuel generalizing work with
  | zero => trivial
  | succ fuel ih =>
      obtain ⟨t, budget, stack⟩ := work
      cases stack with
      | nil => trivial
      | cons frame stack =>
          have hframe := hstack frame (by simp)
          have hrest : ∀ f ∈ stack, f.Inside t := fun f hf => hstack f (by simp [hf])
          have hstep := along_step h budget hframe
          have hcoherent := h.play hstep
          refine along_play_append.2 ⟨hstep, ?_⟩
          rw [← step_eq_play t budget stack] at hcoherent ⊢
          exact ih _ hcoherent (inside_step h budget hframe hrest)

theorem along_unroll (h : t.Coherent) (limit : Option Nat) :
    Along Edit.apply Edit.Fits t (unrollScript limit t) := by
  refine along_run _ ⟨t, .ofLimit limit, [.siblings (t.firstChild t.root)]⟩ h fun frame hf => ?_
  obtain rfl := List.mem_singleton.1 hf
  exact Frame.inside_firstChild h t.root

end Expansion

end Shorthand
