import Mathlib.Data.List.Perm.Subperm
import Shorthand.Proofs.Tree.Builder
import Shorthand.Proofs.Tree.Replaced
import Shorthand.Proofs.Tree.Script

/-!
# Deep copies are isolated

A deep copy is made of new nodes only and leaves every slot of the tree as it was
(`copyTree_isolated`).

Design points:

* the loop is read without a bound on its rounds (`CopiesTo`), so that coming to an end is something
  to be proved: each round leaves one node less to copy;
* the links of a node are settled by child sequences. A node that keeps its parent, its children and
  the children of its parent keeps all five links (`Spells.links_eq`);
* the new nodes are counted. As many places were handed out as the copy has nodes, so every new node
  is below the copy (`Sound.below_copyTree`).
-/

namespace Shorthand.Tree

variable {t t' : Tree}

/-! ### The loop comes to an end -/

/-- Copying what is below the pending nodes comes to an end in `t'`, after however many rounds. In
each of them the children of the node are found by following the links to their end. -/
inductive CopiesTo : List (NodeId × NodeId) → Tree → Tree → Prop where
  | done (t : Tree) : CopiesTo [] t t
  | round {source target : NodeId} {pending : List (NodeId × NodeId)} {t t' : Tree}
      (found : t.Children source (t.children source))
      (rest : CopiesTo ((t.children source).foldl (copyChild target) (t, pending)).2
        ((t.children source).foldl (copyChild target) (t, pending)).1 t') :
      CopiesTo ((source, target) :: pending) t t'

/-- As many rounds as there are nodes to copy are enough. -/
theorem Copying.copiesTo {t₀ : Tree} (h₀ : t₀.Sound) : ∀ (steps : Nat)
    (pending : List (NodeId × NodeId)) {t : Tree}, Copying t₀ t pending →
    pendingSize t₀ pending ≤ steps → CopiesTo pending t (Tree.copyBelow steps pending t)
  | 0, [], t, _, _ => CopiesTo.done t
  | _ + 1, [], t, _, _ => CopiesTo.done t
  | 0, pair :: pending, t, _, hle => by
      have hpos := h₀.pendingSize_pos pair pending
      omega
  | steps + 1, (source, target) :: pending, t, h, hle => by
      obtain ⟨pairs, hpend, -, -, hcopying, hsize⟩ := h.round h₀
      rw [← hpend] at hcopying hsize
      have hfound := h.sound.spells.toChildren source
      exact CopiesTo.round hfound (Copying.copiesTo h₀ steps _ hcopying (by omega))

/-! ### Links from sequences -/

/-- A node that keeps its parent, its children and its siblings keeps its links. -/
theorem Spells.links_eq {kids kids' : NodeId → List NodeId} (h : t.Spells kids) (h' : t'.Spells kids')
    {x : NodeId} (hparent : t'.parent x = t.parent x) (hkids : kids' x = kids x)
    (hsiblings : ∀ p, t.parent x = some p → kids' p = kids p) : t'.links x = t.links x := by
  have haround : t'.previous x = t.previous x ∧ t'.next x = t.next x := by
    cases hp : t.parent x with
    | none =>
        obtain ⟨hprevious, hnext⟩ := h.detached x hp
        rw [hprevious, hnext]
        exact h'.detached x (hparent.trans hp)
    | some p =>
        obtain ⟨l, r, hk⟩ := List.append_of_mem ((h.parent_iff x p).1 hp)
        obtain ⟨hprevious, hnext⟩ := h.around p l x r hk
        rw [hprevious, hnext]
        exact h'.around p l x r ((hsiblings p hp).trans hk)
  have hfirst : t'.firstChild x = t.firstChild x := by rw [h.first, h'.first, hkids]
  have hlast : t'.lastChild x = t.lastChild x := by rw [h.last, h'.last, hkids]
  calc t'.links x
      = ⟨t'.parent x, t'.firstChild x, t'.lastChild x, t'.previous x, t'.next x⟩ := rfl
    _ = ⟨t.parent x, t.firstChild x, t.lastChild x, t.previous x, t.next x⟩ := by
        rw [hparent, hfirst, hlast, haround.1, haround.2]
    _ = t.links x := rfl

/-- Where all nodes of a tree agree with another tree, they have the same slots in it. -/
theorem Sound.slot_eq (h : t.Sound) (h' : t'.Sound)
    (hold : ∀ x, x.index < t.size → AgreeAt t t' x) {x : NodeId} (hx : x.index < t.size) :
    t'.slot x = t.slot x := by
  have hlinks : t'.links x = t.links x := by
    refine h.spells.links_eq h'.spells (hold x hx).parent (hold x hx).children fun p hp => ?_
    exact (hold p (h.coherent.parent x p hp)).children
  calc t'.slot x = ⟨t'.node x, t'.links x⟩ := rfl
    _ = ⟨t.node x, t.links x⟩ := by rw [(hold x hx).node, hlinks]
    _ = t.slot x := rfl

/-! ### The new nodes -/

/-- The nodes below a copy are the new ones. -/
theorem Sound.below_copyTree (h : t.Sound) {id : NodeId} (hid : id.index < t.size) (x : NodeId) :
    (t.copyTree id).Below t.nextId x ↔ t.size ≤ x.index ∧ x.index < (t.copyTree id).size := by
  obtain ⟨h', -, hsize, hbranch, -, hold⟩ := h.copyTree hid
  have hlen := h'.length_preorder 0 t.nextId
  rw [hbranch] at hlen
  have hnew := nextId_lt_copyTree t id
  generalize t.copyTree id = t' at h' hsize hold hlen hnew ⊢
  have hfresh : ∀ x, t'.Below t.nextId x → t.size ≤ x.index ∧ x.index < t'.size := fun x hx =>
    ⟨h.coherent.not_below_of_size_le (fun x hx => (hold x hx).parent) (Nat.le_refl t.size) hx,
      h'.lt_of_below hx hnew⟩
  refine ⟨hfresh x, fun hx => ?_⟩
  -- The places listed below the copy are distinct, new, and as many as there are new ones.
  have hnodup : (((t'.preorder 0 t.nextId).map Prod.fst).map NodeId.index).Nodup := by
    refine (h'.nodup_preorder 0 t.nextId).map ?_
    rintro ⟨a⟩ ⟨b⟩ hab
    exact congrArg NodeId.mk hab
  have hsub : ((t'.preorder 0 t.nextId).map Prod.fst).map NodeId.index ⊆
      List.range' t.size (t.branch id).size := by
    intro i hi
    obtain ⟨y, hy, rfl⟩ := List.mem_map.1 hi
    have hplace := hfresh y ((h'.mem_preorder 0).1 hy)
    exact List.mem_range'_1.2 ⟨hplace.1, by omega⟩
  have hperm := (List.subperm_of_subset hnodup hsub).perm_of_length_le (by simp [hlen])
  have hmem : x.index ∈ List.range' t.size (t.branch id).size :=
    List.mem_range'_1.2 ⟨hx.1, by omega⟩
  obtain ⟨y, hy, hyx⟩ := List.mem_map.1 (hperm.mem_iff.2 hmem)
  obtain rfl : y = x := congrArg NodeId.mk hyx
  exact (h'.mem_preorder 0).1 hy

/-- **A deep copy is isolated.** Making it comes to an end. The copy is detached, and the branch at
it is the branch at its original. As many nodes are new as that branch has, and they are the nodes
below the copy; every node that was there keeps its data and its links. -/
theorem copyTree_isolated (t : Tree) (hcoherent : t.Coherent) (hacyclic : t.Acyclic) (id : NodeId)
    (hid : id.index < t.size) :
    CopiesTo [(id, t.nextId)] (t.copyNode id) (t.copyTree id) ∧
      (t.copyTree id).Sound ∧
      ((t.copyTree id).parent t.nextId = none ∧ (t.copyTree id).previous t.nextId = none ∧
        (t.copyTree id).next t.nextId = none) ∧
      (t.copyTree id).branch t.nextId = t.branch id ∧
      (t.copyTree id).size = t.size + (t.branch id).size ∧
      (∀ x, (t.copyTree id).Below t.nextId x ↔ t.size ≤ x.index ∧ x.index < (t.copyTree id).size) ∧
      (∀ x, x.index < t.size → (t.copyTree id).slot x = t.slot x) ∧
      (t.copyTree id).root = t.root := by
  have h : t.Sound := ⟨hcoherent, hacyclic⟩
  obtain ⟨h', hroot, hsize, hbranch, hparent, hold⟩ := h.copyTree hid
  refine ⟨?_, h', ⟨hparent, h'.coherent.detached _ hparent⟩, hbranch, hsize, h.below_copyTree hid,
    fun x => h.slot_eq h' hold, hroot⟩
  exact (h.copying_copyNode hid).copiesTo h _ _ (h.pendingSize_le_grantedSteps hid)

/-- The node noted last goes first, so the places of this copy are not in the order of its listing. -/
theorem copyTree_isolated_inner : ∃ t, Tree.parse "p>a*3>b>c^d" = .ok t ∧ t.Coherent ∧ t.Acyclic ∧
    2 < t.size ∧ t.nextId = ⟨6⟩ ∧
    (t.copyTree ⟨2⟩).descendants ⟨6⟩ = [(⟨7⟩, 0), (⟨9⟩, 1), (⟨8⟩, 0)] ∧
    (t.copyTree ⟨2⟩).branch ⟨6⟩ = t.branch ⟨2⟩ ∧ (t.copyTree ⟨2⟩).parent ⟨6⟩ = none ∧
    (t.copyTree ⟨2⟩).slot ⟨2⟩ = t.slot ⟨2⟩ := by
  obtain ⟨t, hparse, hresult⟩ : ∃ t, Tree.parse "p>a*3>b>c^d" = .ok t ∧
      (t.size, (t.copyTree ⟨2⟩).descendants ⟨6⟩) = (6, [(⟨7⟩, 0), (⟨9⟩, 1), (⟨8⟩, 0)]) :=
    Tree.exists_parse_of_map (by decide +kernel)
  obtain ⟨hsize, hlist⟩ := Prod.mk.inj hresult
  have h := (Tree.parse_ok hparse).1
  have hnext : t.nextId = ⟨6⟩ := congrArg NodeId.mk hsize
  have hlt : 2 < t.size := by omega
  obtain ⟨-, -, ⟨hparent, -, -⟩, hbranch, -, -, hold, -⟩ :=
    copyTree_isolated t h.coherent h.acyclic ⟨2⟩ hlt
  rw [hnext] at hparent hbranch
  exact ⟨t, hparse, h.coherent, h.acyclic, hlt, hnext, hlist, hbranch, hparent, hold ⟨2⟩ hlt⟩

end Shorthand.Tree
