import Shorthand.Proofs.Expansion.Outcome
import Shorthand.Proofs.Expansion.Script
import Shorthand.Proofs.Tree.Descendants
import Shorthand.Proofs.Tree.IsolatedCopy

/-!
# Expansion touches only what it owns

The nodes that an expansion owns are those that it has made itself. It writes stamps, and it writes
them into whatever children a dissolved copy leaves behind; that these are its own nodes, every one
of them, is an invariant of the loop: **no old node is below a new one** (`OldAbove`).

The edits say what keeps it. An edit `Spares` the first `n` nodes if it writes into none of them and
moves none of them below a newer one. Every step makes such edits only (`Owned.step`), so a whole run
does (`Owned.spares_run`).

What was not below the root is not met at all, and keeps its links (`Tree.Replaced.links_eq`).
-/

namespace Shorthand

namespace Tree

variable {t t' : Tree} {n : Nat}

/-! ### Sparing the old nodes -/

/-- None of the first `n` nodes is below a newer one. -/
def OldAbove (n : Nat) (t : Tree) : Prop :=
  ∀ x p, x.index < n → t.parent x = some p → p.index < n

/-- The edit writes into none of the first `n` nodes, and moves none of them below a newer one. -/
def Edit.Spares (n : Nat) : Edit → Prop
  | push _ => True
  | modifyNode id _ => n ≤ id.index
  | append _ child => n ≤ child.index
  | insertBefore id sibling => id.index < n → sibling.index < n
  | remove _ => True

theorem OldAbove.apply (ht : OldAbove n t) (h : t.Coherent) {e : Edit} (he : e.Within t)
    (hspares : e.Spares n) : OldAbove n (e.apply t) := by
  intro x p hx
  cases e with
  | push node =>
      rw [Edit.apply, parent, links_push]
      exact ht x p hx
  | modifyNode id f =>
      rw [Edit.apply, parent, links_modifyNode]
      exact ht x p hx
  | append parent child =>
      have hne : x ≠ child := fun heq => absurd hx (Nat.not_lt.2 (heq ▸ hspares))
      rw [Edit.apply, h.spells.parent_append he.2 he.1, if_neg hne]
      exact ht x p hx
  | insertBefore id sibling =>
      rw [Edit.apply]
      by_cases hxid : x = id
      · subst hxid
        by_cases hne : x = sibling
        · rw [hne, insertBefore_self, ← hne]
          exact ht x p hx
        · cases hs : t.parent sibling with
          | none =>
              rw [insertBefore_of_parent_eq_none hs]
              exact ht x p hx
          | some q =>
              -- It moves to the parent of an old node.
              rw [h.spells.parent_insertBefore he.1 hne hs, if_pos rfl, ← hs]
              exact ht sibling p (hspares hx)
      · rw [h.parent_insertBefore_of_ne he.1 hxid]
        exact ht x p hx
  | remove id =>
      rw [Edit.apply, h.spells.parent_remove]
      split
      · exact fun hp => absurd hp (by simp)
      · exact ht x p hx

theorem OldAbove.play {es : List Edit} (ht : OldAbove n t) (h : t.Coherent)
    (hes : Along Edit.apply Edit.Fits t es) (hspares : ∀ e ∈ es, e.Spares n) :
    OldAbove n (t.play es) := by
  induction es generalizing t with
  | nil => exact ht
  | cons e es ih =>
      obtain ⟨he, hspares⟩ := List.forall_mem_cons.1 hspares
      exact ih (ht.apply h hes.1.1 he) (h.apply hes.1.1) hes.2 hspares

/-- A spared node keeps its data. -/
theorem Edit.Spares.node_apply {e : Edit} (he : e.Spares n) (hn : n ≤ t.size) {x : NodeId}
    (hx : x.index < n) : (e.apply t).node x = t.node x := by
  cases e with
  | push node => exact node_push_of_lt node (Nat.lt_of_lt_of_le hx hn)
  | modifyNode id f =>
      have hne : x ≠ id := fun heq => absurd hx (Nat.not_lt.2 (heq ▸ he))
      exact node_modifyNode_of_ne f hne
  | append parent child => exact node_append t parent child x
  | insertBefore id sibling => exact node_insertBefore t id sibling x
  | remove id => exact node_remove t id x

theorem node_play_of_spares {es : List Edit} (hspares : ∀ e ∈ es, e.Spares n) (hn : n ≤ t.size)
    {x : NodeId} (hx : x.index < n) : (t.play es).node x = t.node x := by
  induction es generalizing t with
  | nil => rfl
  | cons e es ih =>
      obtain ⟨he, hspares⟩ := List.forall_mem_cons.1 hspares
      rw [play_cons, ih hspares (Nat.le_trans hn (Edit.size_le_apply t e)), he.node_apply hn hx]

/-! ### Scripts that spare the old nodes -/

/-- The children of a new node are new. -/
theorem OldAbove.le_of_mem_children (ht : OldAbove n t) (h : t.Coherent) {p c : NodeId}
    (hp : n ≤ p.index) (hc : c ∈ t.children p) : n ≤ c.index := by
  refine Nat.not_lt.1 fun hlt => ?_
  exact absurd (ht c p hlt ((h.spells.parent_iff c p).2 hc)) (Nat.not_lt.2 hp)

theorem OldAbove.spares_splice (ht : OldAbove n t) (h : t.Coherent) (id : NodeId) :
    ∀ e ∈ t.spliceScript id, e.Spares n := by
  rw [spliceScript, List.forall_mem_append, List.forall_mem_singleton]
  refine ⟨fun e he => ?_, trivial⟩
  obtain ⟨c, hc, rfl⟩ := List.mem_map.1 he
  split
  · exact fun hlt => ht c id hlt ((h.spells.parent_iff c id).2 hc)
  · trivial

theorem spares_copyChildren (target : NodeId) (cs : List NodeId) (hn : n ≤ t.size) :
    ∀ e ∈ copyChildrenScript target t cs, e.Spares n := by
  induction cs generalizing t with
  | nil => simp [copyChildrenScript]
  | cons c cs ih =>
      have hgrow := size_le_play t [.push (t.node c), .append target t.nextId]
      rw [copyChildrenScript, List.forall_mem_cons, List.forall_mem_cons]
      exact ⟨trivial, hn, ih (Nat.le_trans hn hgrow)⟩

theorem spares_copyBelow (steps : Nat) (pending : List (NodeId × NodeId)) (hn : n ≤ t.size) :
    ∀ e ∈ copyBelowScript steps pending t, e.Spares n := by
  induction steps generalizing pending t with
  | zero => simp [copyBelowScript]
  | succ steps ih =>
      cases pending with
      | nil => simp [copyBelowScript]
      | cons pair pending =>
          have hgrow := size_le_play t (copyChildrenScript pair.2 t (t.children pair.1))
          rw [← copyChildren_eq_play pair.2 _ t pending] at hgrow
          rw [copyBelowScript, List.forall_mem_append]
          exact ⟨spares_copyChildren pair.2 _ hn, ih _ (Nat.le_trans hn hgrow)⟩

/-- A deep copy moves new nodes only. -/
theorem spares_copyTree (id : NodeId) (hn : n ≤ t.size) :
    ∀ e ∈ t.copyTreeScript id, e.Spares n := by
  have hgrow := Edit.size_le_apply t (.push (t.node id))
  rw [copyTreeScript, List.forall_mem_cons]
  exact ⟨trivial, spares_copyBelow _ _ (Nat.le_trans hn hgrow)⟩

/-! ### What is not below the parent -/

/-- Where siblings are replaced, all that is not below their parent keeps its links. -/
theorem Replaced.links_eq {p : NodeId} {new : List NodeId}
    (h : Replaced t t' p [] (t.children p) new []) {x : NodeId} (hlt : x.index < t.size)
    (hx : ¬t.Below p x) : t'.links x = t.links x := by
  have hout : ∀ y, y.index < t.size → ¬t.Below p y → t.Outside (t.children p) y ∧ y ≠ p := by
    intro y hy hnot
    refine ⟨⟨hy, fun c hc hb => hnot (Below.of_parent (h.sound.parent_eq_some_iff.2 hc) hb)⟩, ?_⟩
    rintro rfl
    exact hnot (Below.refl y)
  obtain ⟨hxout, hxp⟩ := hout x hlt hx
  refine h.sound.spells.links_eq h.sound'.spells (h.parent x hxout) (h.other x hxout hxp)
    fun q hq => ?_
  obtain ⟨hqout, hqp⟩ := hout q (h.sound.coherent.parent x q hq) fun hb => hx (hb.child hq)
  exact h.other q hqout hqp

end Tree

namespace Expansion

open Shorthand.Tree

variable {t : Tree} {n : Nat} {budget : Budget} {stack : List Frame} {frame : Frame}

/-! ### Steps -/

/-- A copy that is under way is none of the first `n` nodes. -/
def Frame.Fresh (n : Nat) : Frame → Prop
  | .siblings _ => True
  | .copies _ _ _ current => ∀ copy, current = some copy → n ≤ copy.index

theorem spares_settle (ht : OldAbove n t) (h : t.Coherent) {copy : NodeId} (hcopy : n ≤ copy.index)
    (stamp : Repeat) (truncated : Bool) : ∀ e ∈ settleScript t copy stamp truncated, e.Spares n := by
  rw [settleScript]
  split
  · simp [Edit.Spares]
  · split
    · rw [List.forall_mem_append, List.forall_mem_map]
      exact ⟨ht.spares_splice h copy, fun c hc => ht.le_of_mem_children h hcopy hc⟩
    · simp

theorem spares_sibling (ht : OldAbove n t) (h : t.Coherent) (budget : Budget) (id : NodeId) :
    ∀ e ∈ siblingScript t budget id, e.Spares n := by
  rw [siblingScript]
  split
  · simp [Edit.Spares]
  · split
    · simp
    · split
      · exact ht.spares_splice h id
      · simp

theorem spares_copies (hn : n ≤ t.size) (budget : Budget) (template : NodeId) (r : Repeat) (made : Nat) :
    ∀ e ∈ copiesScript t budget template r made, e.Spares n := by
  rw [copiesScript]
  split
  · simp [Edit.Spares]
  · split
    · simp [Edit.Spares]
    · rw [List.forall_mem_append, List.forall_mem_cons, List.forall_mem_singleton]
      exact ⟨spares_copyTree template hn, hn, fun hlt => absurd hlt (Nat.not_lt.2 hn)⟩

theorem spares_step (hn : n ≤ t.size) (ht : OldAbove n t) (h : t.Coherent) (budget : Budget)
    (hframe : frame.Fresh n) : ∀ e ∈ stepScript t budget frame, e.Spares n := by
  match frame, hframe with
  | .siblings none, _ => simp [stepScript]
  | .siblings (some id), _ => exact spares_sibling ht h budget id
  | .copies template r made none, _ => exact spares_copies hn budget template r made
  | .copies template r made (some copy), hfresh =>
      rw [stepScript, List.forall_mem_append]
      refine ⟨spares_settle ht h (hfresh copy rfl) _ _, spares_copies ?_ budget template r made⟩
      rwa [size_settle]

theorem fresh_sibling (id : NodeId) (hstack : ∀ f ∈ stack, f.Fresh n) :
    ∀ f ∈ (visitSibling t budget stack id).stack, f.Fresh n := by
  unfold visitSibling
  split
  · simpa [Frame.Fresh] using hstack
  · split
    · simpa [Frame.Fresh] using hstack
    · split <;> simpa [Frame.Fresh] using hstack

theorem fresh_copies (hn : n ≤ t.size) (template : NodeId) (r : Repeat) (made : Nat)
    (hstack : ∀ f ∈ stack, f.Fresh n) :
    ∀ f ∈ (visitCopies t budget stack template r made).stack, f.Fresh n := by
  unfold visitCopies
  split
  · exact hstack
  · split
    · exact hstack
    · simpa [Frame.Fresh, nextId] using ⟨hn, hstack⟩

theorem fresh_step (hn : n ≤ t.size) (frame : Frame) (hstack : ∀ f ∈ stack, f.Fresh n) :
    ∀ f ∈ (Work.step t budget stack frame).stack, f.Fresh n := by
  match frame with
  | .siblings none => exact hstack
  | .siblings (some id) => exact fresh_sibling id hstack
  | .copies template r made none => exact fresh_copies hn template r made hstack
  | .copies template r made (some copy) =>
      refine fresh_copies ?_ template r made hstack
      rwa [size_settle]

/-! ### Runs -/

/-- The invariant of the loop: the copies under way are new, and no old node is below a new one. -/
structure Owned (n : Nat) (work : Work) : Prop where
  size_le : n ≤ work.tree.size
  coherent : work.tree.Coherent
  oldAbove : OldAbove n work.tree
  inside : ∀ frame ∈ work.stack, frame.Inside work.tree
  fresh : ∀ frame ∈ work.stack, frame.Fresh n

theorem Owned.step (h : Owned n ⟨t, budget, frame :: stack⟩) :
    (∀ e ∈ stepScript t budget frame, e.Spares n) ∧ Owned n (Work.step t budget stack frame) := by
  obtain ⟨hinside, hinsides⟩ := List.forall_mem_cons.1 h.inside
  obtain ⟨hfresh, hfreshs⟩ := List.forall_mem_cons.1 h.fresh
  have hspares := spares_step h.size_le h.oldAbove h.coherent budget hfresh
  have halong := along_step h.coherent budget hinside
  have hplay := step_eq_play t budget stack frame
  refine ⟨hspares, ?_, ?_, ?_, inside_step h.coherent budget hinside hinsides,
    fresh_step h.size_le frame hfreshs⟩
  · rw [hplay]
    exact Nat.le_trans h.size_le (size_le_play t _)
  · rw [hplay]
    exact h.coherent.play halong
  · rw [hplay]
    exact h.oldAbove.play h.coherent halong hspares

/-- **All edits of a run spare the old nodes.** -/
theorem Owned.spares_run (fuel : Nat) {work : Work} (h : Owned n work) :
    ∀ e ∈ runScript fuel work, e.Spares n := by
  induction fuel generalizing work with
  | zero => simp [runScript]
  | succ fuel ih =>
      obtain ⟨t, budget, stack⟩ := work
      cases stack with
      | nil => simp [runScript]
      | cons frame stack =>
          obtain ⟨hspares, howned⟩ := h.step
          rw [runScript, List.forall_mem_append]
          exact ⟨hspares, ih howned⟩

/-- Before the first step there are no new nodes. -/
theorem spares_unroll (h : t.Coherent) (limit : Option Nat) :
    ∀ e ∈ unrollScript limit t, e.Spares t.size := by
  refine Owned.spares_run _ ⟨Nat.le_refl _, h, fun x p _ hp => h.parent x p hp, ?_, ?_⟩
  · exact List.forall_mem_singleton.2 (Frame.inside_firstChild h t.root)
  · exact List.forall_mem_singleton.2 trivial

/-- **Expansion touches only what it owns.** Whatever the limit, all nodes that were there before
keep their data, for stamps are written into new nodes only; the root stays the root; no place is
given back; and a node that could not be reached from the root keeps its links too. -/
theorem unrollLimited_spares_old (t : Tree) (hcoherent : t.Coherent) (hacyclic : t.Acyclic)
    (limit : Nat) :
    (∀ x, x.index < t.size → (unrollLimited t limit).1.node x = t.node x) ∧
      (unrollLimited t limit).1.root = t.root ∧
      t.size ≤ (unrollLimited t limit).1.size ∧
      (∀ x, x.index < t.size → ¬t.Below t.root x → (unrollLimited t limit).1.links x = t.links x) ∧
      (unrollLimited t limit).1 = t.play (unrollScript (if limit = 0 then none else some limit) t) ∧
      ∀ id f, .modifyNode id f ∈ unrollScript (if limit = 0 then none else some limit) t →
        t.size ≤ id.index := by
  have h : t.Sound := ⟨hcoherent, hacyclic⟩
  rw [unrollLimited_eq]
  generalize (if limit = 0 then none else some limit) = bound
  obtain ⟨⟨-, ⟨new, hreplaced⟩, -, -⟩, -⟩ := yields_unrollWithin h bound
  have hspares := spares_unroll hcoherent bound
  refine ⟨fun x hx => ?_, hreplaced.root, hreplaced.size_le, fun x hx => hreplaced.links_eq hx,
    unrollWithin_eq_play bound t, fun id f he => hspares _ he⟩
  rw [unrollWithin_eq_play]
  exact node_play_of_spares hspares (Nat.le_refl _) hx

/-- With `c` taken out of `(a*2+b)*2+c*3>d`, the repeats of the group and of `c` are still pending
after the expansion, and `d` is still below `c`. -/
theorem unrollLimited_spares_old_detached : ∃ t, Tree.parse "(a*2+b)*2+c*3>d" = .ok t ∧
    (t.remove ⟨4⟩).Coherent ∧ (t.remove ⟨4⟩).Acyclic ∧
    ¬(t.remove ⟨4⟩).Below (t.remove ⟨4⟩).root ⟨5⟩ ∧
    (unrollLimited (t.remove ⟨4⟩) 5).1.node ⟨1⟩ = { repeats := some { count := some 2 } } ∧
    (unrollLimited (t.remove ⟨4⟩) 5).1.node ⟨4⟩ =
      { name := some "c", repeats := some { count := some 3 } } ∧
    (unrollLimited (t.remove ⟨4⟩) 5).1.links ⟨5⟩ = { parent := some ⟨4⟩ } := by
  obtain ⟨t, hparse, hresult⟩ : ∃ t, Tree.parse "(a*2+b)*2+c*3>d" = .ok t ∧
      ((t.remove ⟨4⟩).size, (t.remove ⟨4⟩).root, ((t.remove ⟨4⟩).descendants ⟨0⟩).map Prod.fst,
        (t.remove ⟨4⟩).node ⟨1⟩, (t.remove ⟨4⟩).node ⟨4⟩, (t.remove ⟨4⟩).links ⟨5⟩) =
        (6, ⟨0⟩, [⟨1⟩, ⟨2⟩, ⟨3⟩], { repeats := some { count := some 2 } },
          { name := some "c", repeats := some { count := some 3 } }, { parent := some ⟨4⟩ }) :=
    Tree.exists_parse_of_map (by decide +kernel)
  simp only [Prod.mk.injEq] at hresult
  obtain ⟨hsize, hroot, hlist, hgroup, hnode, hlinks⟩ := hresult
  have h := (Tree.parse_ok hparse).1.remove ⟨4⟩
  have hnot : ¬(t.remove ⟨4⟩).Below (t.remove ⟨4⟩).root ⟨5⟩ := fun hb => by
    have hmem := h.mem_map_descendants.2 ⟨hb, by rw [hroot]; decide⟩
    rw [hroot, hlist] at hmem
    simp at hmem
  obtain ⟨hkept, -, -, hlinked, -⟩ := unrollLimited_spares_old _ h.coherent h.acyclic 5
  rw [hsize] at hkept hlinked
  exact ⟨t, hparse, h.coherent, h.acyclic, hnot, (hkept ⟨1⟩ (by decide)).trans hgroup,
    (hkept ⟨4⟩ (by decide)).trans hnode, (hlinked ⟨5⟩ (by decide) hnot).trans hlinks⟩

end Expansion

end Shorthand
