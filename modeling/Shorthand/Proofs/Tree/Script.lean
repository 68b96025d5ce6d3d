import Shorthand.Proofs.Tree.Copy

/-!
# Scripts of edits

Whatever changes a tree does so by five **edits**: a new node, other data for a node, and the three
moves that relink it. A larger operation is a *script*, the edits that it makes one after the other;
the script of an operation is read off the tree that it starts on, and playing it does what the
operation does (`splice_eq_play`, `copyTree_eq_play`).

What holds along a script is said once, for each of its edits at the tree that it meets (`Along`):

* an edit of nodes of the tree keeps the links in agreement, whatever it moves where
  (`Coherent.apply`), so a cycle does no more harm than being one;
* an edit that does not put a node below itself keeps the tree acyclic (`Sound.apply`);
* splicing and copying never put a node below itself (`Fits`).
-/

namespace Shorthand.Tree

variable {t t' : Tree}

/-! ### Steps one after the other -/

section Along

variable {α : Type} {apply : Tree → α → Tree} {P Q : Tree → α → Prop}

/-- Every step has the property at the tree that it is taken on. -/
def Along (apply : Tree → α → Tree) (P : Tree → α → Prop) : Tree → List α → Prop
  | _, [] => True
  | t, step :: steps => P t step ∧ Along apply P (apply t step) steps

theorem along_append {steps rest : List α} :
    Along apply P t (steps ++ rest) ↔
      Along apply P t steps ∧ Along apply P (steps.foldl apply t) rest := by
  induction steps generalizing t with
  | nil => simp [Along]
  | cons step steps ih => simp [Along, ih, and_assoc]

/-- What every step keeps is kept along all of them, and each of them finds it. -/
theorem Along.keeps {I : Tree → Prop} (hkeep : ∀ t step, I t → P t step → I (apply t step))
    {steps : List α} (h : I t) (hsteps : Along apply P t steps) : I (steps.foldl apply t) := by
  induction steps generalizing t with
  | nil => exact h
  | cons step steps ih => exact ih (hkeep t step h hsteps.1) hsteps.2

theorem Along.mono {I : Tree → Prop} (hkeep : ∀ t step, I t → P t step → I (apply t step))
    (hmono : ∀ t step, I t → P t step → Q t step) {steps : List α} (h : I t)
    (hsteps : Along apply P t steps) : Along apply Q t steps := by
  induction steps generalizing t with
  | nil => trivial
  | cons step steps ih =>
      exact ⟨hmono t step h hsteps.1, ih (hkeep t step h hsteps.1) hsteps.2⟩

theorem Along.and {steps : List α} (hP : Along apply P t steps) (hQ : Along apply Q t steps) :
    Along apply (fun t step => P t step ∧ Q t step) t steps := by
  induction steps generalizing t with
  | nil => trivial
  | cons step steps ih => exact ⟨⟨hP.1, hQ.1⟩, ih hP.2 hQ.2⟩

end Along

/-! ### Edits -/

/-- One change of a tree. -/
inductive Edit where
  | push (node : Node)
  | modifyNode (id : NodeId) (f : Node → Node)
  | append (parent child : NodeId)
  | insertBefore (id sibling : NodeId)
  | remove (id : NodeId)

namespace Edit

/-- Makes the change. -/
def apply (t : Tree) : Edit → Tree
  | push node => t.push node
  | modifyNode id f => t.modifyNode id f
  | append parent child => t.append parent child
  | insertBefore id sibling => t.insertBefore id sibling
  | remove id => t.remove id

/-- The edit names nodes of the tree only. -/
def Within (t : Tree) : Edit → Prop
  | push _ => True
  | modifyNode id _ => id.index < t.size
  | append parent child => parent.index < t.size ∧ child.index < t.size
  | insertBefore id sibling => id.index < t.size ∧ sibling.index < t.size
  | remove id => id.index < t.size

/-- The edit does not ask for a node to be put below itself. -/
def Permitted (t : Tree) : Edit → Prop
  | append parent child => ¬t.Below child parent
  | insertBefore id sibling => ∀ parent, t.parent sibling = some parent → ¬t.Below id parent
  | _ => True

/-- The edit names nodes of the tree only, and is permitted unless the tree has a cycle already. -/
def Fits (t : Tree) (e : Edit) : Prop :=
  e.Within t ∧ (t.Acyclic → e.Permitted t)

theorem size_le_apply (t : Tree) (e : Edit) : t.size ≤ (e.apply t).size := by
  cases e <;> simp [apply]

end Edit

/-- Makes the edits one after the other. -/
def play (t : Tree) (edits : List Edit) : Tree :=
  edits.foldl Edit.apply t

@[simp] theorem play_nil (t : Tree) : t.play [] = t := rfl

@[simp] theorem play_cons (t : Tree) (e : Edit) (es : List Edit) :
    t.play (e :: es) = (e.apply t).play es := rfl

@[simp] theorem play_append (t : Tree) (es es' : List Edit) :
    t.play (es ++ es') = (t.play es).play es' :=
  List.foldl_append

theorem along_play_append {P : Tree → Edit → Prop} {es es' : List Edit} :
    Along Edit.apply P t (es ++ es') ↔
      Along Edit.apply P t es ∧ Along Edit.apply P (t.play es) es' :=
  along_append

theorem size_le_play (t : Tree) (es : List Edit) : t.size ≤ (t.play es).size := by
  induction es generalizing t with
  | nil => exact Nat.le_refl _
  | cons e es ih => exact Nat.le_trans (Edit.size_le_apply t e) (ih _)

/-- **An edit keeps the links in agreement.** Where a node is moved does not matter. -/
theorem Coherent.apply (h : t.Coherent) {e : Edit} (he : e.Within t) : (e.apply t).Coherent := by
  cases e with
  | push node =>
      exact (h.spells.push node).coherent (by simpa using Nat.lt_succ_of_lt h.root)
  | modifyNode id f => exact (h.spells.modifyNode id f).coherent (by simpa using h.root)
  | append parent child => exact h.append he.2 he.1
  | insertBefore id sibling => exact h.insertBefore he.1
  | remove id => exact h.remove id

/-- **A permitted edit keeps the tree acyclic.** -/
theorem Sound.apply (h : t.Sound) {e : Edit} (he : e.Within t) (hp : e.Permitted t) :
    (e.apply t).Sound := by
  cases e with
  | push node => exact h.push node
  | modifyNode id f => exact h.modifyNode id f
  | append parent child => exact h.append he.2 he.1 hp
  | insertBefore id sibling =>
      show (t.insertBefore id sibling).Sound
      by_cases hne : id = sibling
      · rw [hne, insertBefore_self]
        exact h
      · cases hs : t.parent sibling with
        | none =>
            rw [insertBefore_of_parent_eq_none hs]
            exact h
        | some parent => exact h.insertBefore he.1 hne hs (hp parent hs)
  | remove id => exact h.remove id

/-- A script of nodes of the tree keeps the links in agreement. -/
theorem Coherent.play (h : t.Coherent) {es : List Edit} (hes : Along Edit.apply Edit.Fits t es) :
    (t.play es).Coherent :=
  hes.keeps (fun _ _ ht he => ht.apply he.1) h

theorem Sound.play (h : t.Sound) {es : List Edit} (hes : Along Edit.apply Edit.Fits t es) :
    (t.play es).Sound :=
  hes.keeps (fun _ _ ht he => ht.apply he.1 (he.2 ht.acyclic)) h

/-- On an acyclic tree, a script that fits asks for nothing that is not permitted. -/
theorem Sound.permitted (h : t.Sound) {es : List Edit} (hes : Along Edit.apply Edit.Fits t es) :
    Along Edit.apply Edit.Permitted t es :=
  hes.mono (fun _ _ ht he => ht.apply he.1 (he.2 ht.acyclic)) (fun _ _ ht he => he.2 ht.acyclic) h

/-! ### Removing and changing data -/

theorem Edit.fits_remove {id : NodeId} (hid : id.index < t.size) : (Edit.remove id).Fits t :=
  ⟨hid, fun _ => trivial⟩

theorem Edit.fits_modifyNode {id : NodeId} (hid : id.index < t.size) (f : Node → Node) :
    (Edit.modifyNode id f).Fits t :=
  ⟨hid, fun _ => trivial⟩

theorem Edit.fits_push (node : Node) : (Edit.push node).Fits t :=
  ⟨trivial, fun _ => trivial⟩

/-- Edits of one kind that fit wherever their nodes are in the tree fit one after the other. -/
theorem along_map_fits {edit : NodeId → Edit}
    (hfits : ∀ (t : Tree) (id : NodeId), id.index < t.size → (edit id).Fits t) {ids : List NodeId}
    (hids : ∀ id ∈ ids, id.index < t.size) : Along Edit.apply Edit.Fits t (ids.map edit) := by
  induction ids generalizing t with
  | nil => trivial
  | cons id ids ih =>
      refine ⟨hfits t id (hids id (by simp)), ih fun x hx => ?_⟩
      exact Nat.lt_of_lt_of_le (hids x (by simp [hx])) (Edit.size_le_apply t _)

/-! ### Splicing -/

/-- The edits that put the children of a node in its place. -/
def spliceScript (t : Tree) (id : NodeId) : List Edit :=
  let move := fun child =>
    if (t.parent id).isSome then Edit.insertBefore child id else Edit.remove child
  (t.children id).map move ++ [.remove id]

theorem splice_eq_play (t : Tree) (id : NodeId) : (t.splice id).1 = t.play (t.spliceScript id) := by
  have hmove : ∀ (u : Tree) (child : NodeId),
      (if (t.parent id).isSome then u.insertBefore child id else u.remove child) =
        (if (t.parent id).isSome then Edit.insertBefore child id else Edit.remove child).apply u := by
    intro u child
    split <;> rfl
  simp only [splice, hmove, spliceScript, play, List.foldl_append, List.foldl_map]
  rfl

/-- Children that are put in front of their parent, one by one, are never put below themselves. -/
theorem Coherent.along_insertBefore {id : NodeId} : ∀ (rest : List NodeId) {t : Tree}, t.Coherent →
    rest.Nodup → (∀ c ∈ rest, t.parent c = some id) →
    Along Edit.apply Edit.Fits t (rest.map fun c => Edit.insertBefore c id)
  | [], _, _, _, _ => trivial
  | c :: rest, t, h, hnd, hrest => by
      rw [List.nodup_cons] at hnd
      have hc : t.parent c = some id := hrest c (by simp)
      obtain ⟨hclt, hid⟩ := h.spells.inside id c ((h.spells.parent_iff c id).1 hc)
      have hfits : (Edit.insertBefore c id).Fits t := by
        refine ⟨⟨hclt, hid⟩, fun hacyclic parent hparent hb => ?_⟩
        exact hacyclic.not_below_of_parent hc (hb.child hparent)
      refine ⟨hfits, Coherent.along_insertBefore rest (h.apply hfits.1) hnd.2 fun x hx => ?_⟩
      have hxc : x ≠ c := fun heq => hnd.1 (heq ▸ hx)
      rw [← hrest x (by simp [hx])]
      exact h.parent_insertBefore_of_ne hclt hxc

theorem Coherent.along_splice (h : t.Coherent) {id : NodeId} (hid : id.index < t.size) :
    Along Edit.apply Edit.Fits t (t.spliceScript id) := by
  have hlt : ∀ c ∈ t.children id, c.index < t.size := fun c hc => (h.spells.inside id c hc).1
  rw [spliceScript, along_play_append]
  constructor
  · cases (t.parent id).isSome with
    | true =>
        refine Coherent.along_insertBefore _ h (h.spells.nodup id) fun c hc => ?_
        exact h.spells.parent_eq hc
    | false => exact along_map_fits (fun t id => Edit.fits_remove) hlt
  · exact ⟨Edit.fits_remove (Nat.lt_of_lt_of_le hid (size_le_play t _)), trivial⟩

/-! ### Copying -/

/-- The edits that copy children below `target`. -/
def copyChildrenScript (target : NodeId) : Tree → List NodeId → List Edit
  | _, [] => []
  | t, child :: children =>
    .push (t.node child) :: .append target t.nextId ::
      copyChildrenScript target ((t.copyNode child).append target t.nextId) children

/-- The edits that copy what is below the pending nodes, for at most `steps` of them. -/
def copyBelowScript : (steps : Nat) → List (NodeId × NodeId) → Tree → List Edit
  | 0, _, _ => []
  | _ + 1, [], _ => []
  | steps + 1, (source, target) :: pending, t =>
    let state := (t.children source).foldl (copyChild target) (t, pending)
    copyChildrenScript target t (t.children source) ++ copyBelowScript steps state.2 state.1

/-- The edits that copy a node with all below it. -/
def copyTreeScript (t : Tree) (id : NodeId) : List Edit :=
  .push (t.node id) :: copyBelowScript (grantedSteps t.size) [(id, t.nextId)] (t.copyNode id)

theorem copyChildren_eq_play (target : NodeId) (cs : List NodeId) (t : Tree)
    (pending : List (NodeId × NodeId)) :
    (cs.foldl (copyChild target) (t, pending)).1 = t.play (copyChildrenScript target t cs) := by
  induction cs generalizing t pending with
  | nil => rfl
  | cons c cs ih =>
      rw [List.foldl_cons, copyChild, ih]
      rfl

theorem copyBelow_eq_play (steps : Nat) (pending : List (NodeId × NodeId)) (t : Tree) :
    copyBelow steps pending t = t.play (copyBelowScript steps pending t) := by
  induction steps generalizing pending t with
  | zero => rfl
  | succ steps ih =>
      cases pending with
      | nil => rfl
      | cons pair pending =>
          rw [copyBelow, copyBelowScript, play_append, ← copyChildren_eq_play pair.2 _ t pending]
          exact ih _ _

theorem copyTree_eq_play (t : Tree) (id : NodeId) :
    t.copyTree id = t.play (t.copyTreeScript id) :=
  copyBelow_eq_play _ _ _

/-- A new node has nothing below it, so it may go anywhere. -/
theorem Coherent.fits_append_nextId (h : t.Coherent) (node : Node) {target : NodeId}
    (htarget : target.index < t.size) : (Edit.append target t.nextId).Fits (t.push node) := by
  refine ⟨⟨?_, ?_⟩, fun _ hb => ?_⟩
  · rw [size_push]
    exact Nat.lt_succ_of_lt htarget
  · rw [size_push]
    exact Nat.lt_succ_self t.size
  · exact h.not_below_nextId node htarget hb

theorem Coherent.along_copyChildren {target : NodeId} (cs : List NodeId) (h : t.Coherent)
    (htarget : target.index < t.size) :
    Along Edit.apply Edit.Fits t (copyChildrenScript target t cs) := by
  induction cs generalizing t with
  | nil => trivial
  | cons c cs ih =>
      have hpush := Edit.fits_push (t := t) (t.node c)
      have happend := h.fits_append_nextId (t.node c) htarget
      refine ⟨hpush, happend, ih ((h.apply hpush.1).apply happend.1) ?_⟩
      exact Nat.lt_of_lt_of_le htarget (size_le_play t [.push (t.node c), .append target t.nextId])

/-- Copying moves new nodes only. -/
theorem Coherent.parent_copyChildren {target x : NodeId} (cs : List NodeId) (h : t.Coherent)
    (htarget : target.index < t.size) (hx : x.index < t.size) :
    (t.play (copyChildrenScript target t cs)).parent x = t.parent x := by
  induction cs generalizing t with
  | nil => rfl
  | cons c cs ih =>
      have hpush : (t.push (t.node c)).Coherent := h.apply (Edit.fits_push (t.node c)).1
      have happend := h.fits_append_nextId (t.node c) htarget
      have hgrow := size_le_play t [.push (t.node c), .append target t.nextId]
      calc (t.play (copyChildrenScript target t (c :: cs))).parent x
          = ((t.copyNode c).append target t.nextId).parent x :=
            ih (hpush.apply happend.1) (Nat.lt_of_lt_of_le htarget hgrow)
              (Nat.lt_of_lt_of_le hx hgrow)
        _ = (t.push (t.node c)).parent x := by
            rw [copyNode, hpush.spells.parent_append happend.1.2 happend.1.1, if_neg (nextId_ne hx)]
        _ = t.parent x := by rw [Tree.parent, links_push, ← Tree.parent]

/-- The pairs noted while children are copied name nodes of the tree. -/
theorem copyChildren_targets (target : NodeId) (cs : List NodeId) (t : Tree)
    (pending : List (NodeId × NodeId)) (hpending : ∀ e ∈ pending, e.2.index < t.size) :
    ∀ e ∈ (cs.foldl (copyChild target) (t, pending)).2,
      e.2.index < (cs.foldl (copyChild target) (t, pending)).1.size := by
  induction cs generalizing t pending with
  | nil => exact hpending
  | cons c cs ih =>
      refine ih _ _ fun e he => ?_
      have hsize : ((t.copyNode c).append target t.nextId).size = t.size + 1 := by simp [copyNode]
      rw [hsize]
      rcases List.mem_cons.1 he with rfl | he
      · exact Nat.lt_succ_self t.size
      · exact Nat.lt_succ_of_lt (hpending e he)

theorem Coherent.along_copyBelow (steps : Nat) (pending : List (NodeId × NodeId)) (h : t.Coherent)
    (hpending : ∀ e ∈ pending, e.2.index < t.size) :
    Along Edit.apply Edit.Fits t (copyBelowScript steps pending t) ∧
      ∀ x, x.index < t.size → (copyBelow steps pending t).parent x = t.parent x := by
  induction steps generalizing pending t with
  | zero => exact ⟨trivial, fun _ _ => rfl⟩
  | succ steps ih =>
      cases pending with
      | nil => exact ⟨trivial, fun _ _ => rfl⟩
      | cons pair pending =>
          have htarget := hpending pair (by simp)
          have hround := h.along_copyChildren (t.children pair.1) htarget
          have hcoherent := h.play hround
          have hparent := fun x => h.parent_copyChildren (x := x) (t.children pair.1) htarget
          have hgrow := size_le_play t (copyChildrenScript pair.2 t (t.children pair.1))
          have htargets := copyChildren_targets pair.2 (t.children pair.1) t pending fun e he =>
            hpending e (by simp [he])
          have hplay := copyChildren_eq_play pair.2 (t.children pair.1) t pending
          rw [← hplay] at hcoherent hparent hgrow
          obtain ⟨hrest, hold⟩ := ih _ hcoherent htargets
          refine ⟨along_play_append.2 ⟨hround, ?_⟩, fun x hx => ?_⟩
          · rw [← hplay]
            exact hrest
          · exact (hold x (Nat.lt_of_lt_of_le hx hgrow)).trans (hparent x hx)

theorem Coherent.along_copyTree (h : t.Coherent) (id : NodeId) :
    Along Edit.apply Edit.Fits t (t.copyTreeScript id) ∧
      ∀ x, x.index < t.size → (t.copyTree id).parent x = t.parent x := by
  have hpush := Edit.fits_push (t := t) (t.node id)
  have hgrow : t.size < (t.copyNode id).size := by
    rw [copyNode, size_push]
    exact Nat.lt_succ_self t.size
  obtain ⟨hrest, hold⟩ := Coherent.along_copyBelow (grantedSteps t.size) [(id, t.nextId)]
    (t := t.copyNode id) (h.apply hpush.1) fun e he => by
      obtain rfl := List.mem_singleton.1 he
      exact hgrow
  refine ⟨⟨hpush, hrest⟩, fun x hx => ?_⟩
  rw [copyTree, hold x (Nat.lt_trans hx hgrow), copyNode, Tree.parent, links_push, ← Tree.parent]

/-- The copy is a node of the tree. -/
theorem nextId_lt_copyTree (t : Tree) (id : NodeId) : t.nextId.index < (t.copyTree id).size := by
  have hpush : t.nextId.index < (t.push (t.node id)).size := by
    rw [size_push]
    exact Nat.lt_succ_self t.size
  rw [copyTree_eq_play]
  exact Nat.lt_of_lt_of_le hpush (size_le_play _ _)

end Shorthand.Tree
