import Shorthand.Proofs.Tree.Builder

/-!
# Moves act on child sequences

What the operations on links do is said on sequences of children (`moves_act_on_sequences`). Each of
them is described by the sequences that it leaves behind, for all nodes at once (`Rearranged`): the
node that is moved is erased wherever it was, and put last, put in front of another one, or replaced
by its children. It makes no difference where it was. A last child may be put last again, and a node
in front of the sibling that follows it; then the sequence stays the same.
-/

namespace Shorthand.Tree

variable {t t' : Tree} {p id : NodeId}

/-! ### Sequences -/

/-- The sequence with `new` in the place of `old`. -/
def substitute (old : NodeId) (new ids : List NodeId) : List NodeId :=
  ids.flatMap fun id => if id = old then new else [id]

theorem substitute_of_not_mem {old : NodeId} {ids : List NodeId} (new : List NodeId) (h : old ∉ ids) :
    substitute old new ids = ids := by
  have hsame : ids.flatMap (fun id => if id = old then new else [id]) = ids.flatMap fun id => [id] := by
    refine List.flatMap_congr fun id hid => if_neg ?_
    intro heq
    exact h (heq ▸ hid)
  rw [substitute, hsame, List.flatMap_singleton']

theorem substitute_cut {old : NodeId} {l r : List NodeId} (new : List NodeId)
    (h : (l ++ old :: r).Nodup) : substitute old new (l ++ old :: r) = l ++ new ++ r := by
  rw [List.nodup_middle, List.nodup_cons, List.mem_append, not_or] at h
  have hl := substitute_of_not_mem new h.1.1
  have hr := substitute_of_not_mem new h.1.2
  rw [substitute] at hl hr ⊢
  rw [List.flatMap_append, List.flatMap_cons, hl, hr, if_pos rfl, List.append_assoc]

/-! ### Rearranging a tree -/

/-- The child sequences of the tree have become `kids`, and nothing else has changed. -/
structure Rearranged (t t' : Tree) (kids : NodeId → List NodeId) : Prop where
  sound : t'.Sound
  size : t'.size = t.size
  root : t'.root = t.root
  node : ∀ x, t'.node x = t.node x
  children : ∀ q, t'.children q = kids q

/-- A node that is in no sequence is detached. -/
theorem Sound.parent_eq_none (h : t.Sound) {x : NodeId} (hx : ∀ q, x ∉ t.children q) :
    t.parent x = none := by
  cases hp : t.parent x with
  | none => rfl
  | some q => exact absurd (h.parent_eq_some_iff.1 hp) (hx q)

theorem Sound.rearranged_remove (h : t.Sound) (id : NodeId) :
    Rearranged t (t.remove id) fun q =>
      if t.parent id = some q then (t.children q).erase id else t.children q := by
  refine ⟨h.remove id, size_remove t id, root_remove t id, node_remove t id, fun q => ?_⟩
  rw [h.children_remove]
  by_cases hq : t.parent id = some q
  · rw [if_pos hq]
  · rw [if_neg hq]
    exact List.erase_of_not_mem fun hm => hq (h.parent_eq_some_iff.2 hm)

theorem Sound.rearranged_append (h : t.Sound) (hp : p.index < t.size) (hid : id.index < t.size)
    (hb : ¬t.Below id p) :
    Rearranged t (t.append p id) fun q =>
      if q = p then (t.children p).erase id ++ [id] else (t.children q).erase id :=
  ⟨h.append hid hp hb, size_append t p id, root_append t p id, node_append t p id,
    h.children_append hid hp⟩

theorem Sound.rearranged_insertBefore (h : t.Sound) {s : NodeId} (hid : id.index < t.size)
    (hs : t.parent s = some p) (hb : ¬t.Below id s) :
    Rearranged t (t.insertBefore id s) fun q =>
      if q = p then substitute s [id, s] ((t.children p).erase id) else (t.children q).erase id := by
  have hne : id ≠ s := by
    intro heq
    subst heq
    exact hb (Below.refl id)
  have hmem : s ∈ (t.children p).erase id :=
    (h.nodup_children p).mem_erase_iff.2 ⟨Ne.symm hne, h.parent_eq_some_iff.1 hs⟩
  obtain ⟨l, r, hk⟩ := List.append_of_mem hmem
  have hnd : (l ++ s :: r).Nodup := hk ▸ (h.nodup_children p).erase id
  refine ⟨h.insertBefore hid hne hs fun hbp => hb (hbp.child hs), size_insertBefore t id s,
    root_insertBefore t id s, node_insertBefore t id s, fun q => ?_⟩
  rw [h.children_insertBefore hid hne hk, hk, substitute_cut _ hnd]
  simp

/-! ### Dissolving a node -/

theorem Sound.rearranged_splice (h : t.Sound) (hp : t.parent id = some p) :
    Rearranged t (t.splice id).1 fun q =>
      if q = p then substitute id (t.children id) (t.children p)
      else if q = id then [] else t.children q := by
  obtain ⟨l, r, hk⟩ := List.append_of_mem (h.parent_eq_some_iff.1 hp)
  obtain ⟨hsound, hkids, hnil, hother⟩ := h.splice hk
  have hnd : (l ++ id :: r).Nodup := hk ▸ h.nodup_children p
  refine ⟨hsound, size_splice t id, root_splice t id, node_splice t id, fun q => ?_⟩
  by_cases hqp : q = p
  · rw [if_pos hqp, hqp, hkids, hk, substitute_cut _ hnd]
  · by_cases hqs : q = id
    · rw [if_neg hqp, if_pos hqs, hqs, hnil]
    · rw [if_neg hqp, if_neg hqs, hother q hqp hqs]

/-- A node that has been dissolved is in no sequence. -/
theorem Sound.parent_splice (h : t.Sound) (hp : t.parent id = some p) :
    (t.splice id).1.parent id = none := by
  have hsplice := h.rearranged_splice hp
  refine hsplice.sound.parent_eq_none fun q hm => ?_
  rw [hsplice.children] at hm
  by_cases hqp : q = p
  · obtain ⟨l, r, hk⟩ := List.append_of_mem (h.parent_eq_some_iff.1 hp)
    obtain ⟨hl, hr⟩ := h.spells.not_mem_cut hk
    have hself : id ∉ t.children id := fun hm =>
      h.acyclic.ne_of_parent (h.parent_eq_some_iff.2 hm) rfl
    rw [if_pos hqp, hk, substitute_cut _ (hk ▸ h.nodup_children p)] at hm
    simp [hl, hr, hself] at hm
  · rw [if_neg hqp] at hm
    by_cases hqs : q = id
    · simp [hqs] at hm
    · rw [if_neg hqs] at hm
      exact hqp (h.spells.eq_of_mem hm (h.parent_eq_some_iff.1 hp))

/-- Removing the children of a node, one by one. -/
theorem Sound.foldl_remove {s : NodeId} : ∀ (rest : List NodeId) {t : Tree}, t.Sound →
    t.children s = rest →
    (rest.foldl Tree.remove t).Sound ∧ (rest.foldl Tree.remove t).children s = [] ∧
      ∀ q, q ≠ s → (rest.foldl Tree.remove t).children q = t.children q
  | [], t, h, hs => ⟨h, hs, fun _ _ => rfl⟩
  | c :: rest, t, h, hs => by
      have hc : c ∈ t.children s := by simp [hs]
      have hrest : (t.remove c).children s = rest := by
        rw [h.children_remove, hs, List.erase_cons_head]
      obtain ⟨hsound, hnil, hother⟩ := Sound.foldl_remove rest (h.remove c) hrest
      refine ⟨hsound, hnil, fun q hq => ?_⟩
      rw [List.foldl_cons, hother q hq, h.children_remove]
      exact List.erase_of_not_mem fun hm => hq (h.spells.eq_of_mem hm hc)

theorem Sound.rearranged_splice_detached (h : t.Sound) (hp : t.parent id = none) :
    Rearranged t (t.splice id).1 fun q => if q = id then [] else t.children q := by
  obtain ⟨hsound, hnil, hother⟩ := Sound.foldl_remove (t.children id) h rfl
  have hsplice : (t.splice id).1 = ((t.children id).foldl Tree.remove t).remove id := by
    simp [Tree.splice, hp]
  refine ⟨hsplice ▸ hsound.remove id, size_splice t id, root_splice t id, node_splice t id,
    fun q => ?_⟩
  rw [hsplice, hsound.children_remove]
  by_cases hq : q = id
  · rw [if_pos hq, hq, hnil, List.erase_nil]
  · rw [if_neg hq, hother q hq]
    exact List.erase_of_not_mem (h.spells.not_mem_of_parent_eq_none hp q)

/-- The children of a detached node that is dissolved are in no sequence. -/
theorem Sound.parent_splice_detached (h : t.Sound) (hp : t.parent id = none) {c : NodeId}
    (hc : c ∈ t.children id) : (t.splice id).1.parent c = none := by
  have hsplice := h.rearranged_splice_detached hp
  refine hsplice.sound.parent_eq_none fun q hm => ?_
  rw [hsplice.children] at hm
  by_cases hq : q = id
  · simp [hq] at hm
  · rw [if_neg hq] at hm
    exact hq (h.spells.eq_of_mem hm hc)

/-- **Moves act on child sequences as operations on lists.** Nothing else changes: not the data of a
node, and no other sequence. -/
theorem moves_act_on_sequences (t : Tree) (hcoherent : t.Coherent) (hacyclic : t.Acyclic) :
    (∀ p c : NodeId, p.index < t.size → c.index < t.size → ¬t.Below c p →
        Rearranged t (t.append p c) fun q =>
          if q = p then (t.children p).erase c ++ [c] else (t.children q).erase c) ∧
      (∀ n r p : NodeId, n.index < t.size → t.parent r = some p → ¬t.Below n r →
        Rearranged t (t.insertBefore n r) fun q =>
          if q = p then substitute r [n, r] ((t.children p).erase n) else (t.children q).erase n) ∧
      (∀ n r : NodeId, n = r ∨ t.parent r = none → t.insertBefore n r = t) ∧
      (∀ c : NodeId, Rearranged t (t.remove c) fun q =>
        if t.parent c = some q then (t.children q).erase c else t.children q) ∧
      (∀ g p : NodeId, t.parent g = some p →
        (Rearranged t (t.splice g).1 fun q =>
          if q = p then substitute g (t.children g) (t.children p)
          else if q = g then [] else t.children q) ∧
        (t.splice g).1.parent g = none ∧ (t.splice g).2 = t.children g) ∧
      ∀ g : NodeId, t.parent g = none →
        (Rearranged t (t.splice g).1 fun q => if q = g then [] else t.children q) ∧
        (∀ c ∈ t.children g, (t.splice g).1.parent c = none) ∧ (t.splice g).2 = t.children g := by
  have h : t.Sound := ⟨hcoherent, hacyclic⟩
  refine ⟨fun p c hp hc hb => h.rearranged_append hp hc hb,
    fun n r p hn hr hb => h.rearranged_insertBefore hn hr hb, fun n r hstay => ?_,
    h.rearranged_remove, fun g p hg => ?_, fun g hg => ?_⟩
  · rcases hstay with heq | hr
    · rw [heq, insertBefore_self]
    · exact insertBefore_of_parent_eq_none hr
  · exact ⟨h.rearranged_splice hg, h.parent_splice hg, rfl⟩
  · exact ⟨h.rearranged_splice_detached hg, fun c hc => h.parent_splice_detached hg hc, rfl⟩

/-- The last child is put last, the first one in front of the sibling behind it, and the group between
them is dissolved. -/
theorem moves_act_on_sequences_siblings : ∃ t, Tree.parse "a+(b+c)*2+d" = .ok t ∧ t.Coherent ∧
    t.Acyclic ∧ t.children ⟨0⟩ = [⟨1⟩, ⟨2⟩, ⟨5⟩] ∧
    ¬t.Below ⟨5⟩ ⟨0⟩ ∧ (t.append ⟨0⟩ ⟨5⟩).children ⟨0⟩ = [⟨1⟩, ⟨2⟩, ⟨5⟩] ∧
    ¬t.Below ⟨1⟩ ⟨2⟩ ∧ (t.insertBefore ⟨1⟩ ⟨2⟩).children ⟨0⟩ = [⟨1⟩, ⟨2⟩, ⟨5⟩] ∧
    (t.splice ⟨2⟩).1.children ⟨0⟩ = [⟨1⟩, ⟨3⟩, ⟨4⟩, ⟨5⟩] := by
  obtain ⟨t, hparse, hresult⟩ : ∃ t, Tree.parse "a+(b+c)*2+d" = .ok t ∧
      (t.size, t.parent ⟨0⟩, t.parent ⟨2⟩, t.children ⟨0⟩, t.children ⟨2⟩) =
        (6, none, some ⟨0⟩, [⟨1⟩, ⟨2⟩, ⟨5⟩], [⟨3⟩, ⟨4⟩]) :=
    Tree.exists_parse_of_map (by decide +kernel)
  simp only [Prod.mk.injEq] at hresult
  obtain ⟨hsize, hroot, hgroup, htop, hinner⟩ := hresult
  have h := (Tree.parse_ok hparse).1
  -- Above the group there is the root only.
  have habove : ∀ x : NodeId, t.Below x ⟨0⟩ → x = ⟨0⟩ := by
    intro x hx
    rcases hx.cases with heq | ⟨q, hq, -⟩
    · exact heq.symm
    · simp [hroot] at hq
  have hlast : ¬t.Below ⟨5⟩ ⟨0⟩ := fun hb => absurd (habove _ hb) (by simp)
  have hfirst : ¬t.Below ⟨1⟩ ⟨2⟩ := by
    intro hb
    rcases hb.cases with heq | ⟨q, hq, hbq⟩
    · simp at heq
    · obtain rfl : ⟨0⟩ = q := Option.some.inj (hgroup.symm.trans hq)
      exact absurd (habove _ hbq) (by simp)
  obtain ⟨happend, hinsert, -, -, hsplice, -⟩ := moves_act_on_sequences t h.coherent h.acyclic
  refine ⟨t, hparse, h.coherent, h.acyclic, htop, hlast, ?_, hfirst, ?_, ?_⟩
  · rw [(happend ⟨0⟩ ⟨5⟩ (by simp [hsize]) (by simp [hsize]) hlast).children, if_pos rfl, htop]
    decide
  · rw [(hinsert ⟨1⟩ ⟨2⟩ ⟨0⟩ (by simp [hsize]) hgroup hfirst).children, if_pos rfl, htop]
    decide
  · rw [(hsplice ⟨2⟩ ⟨0⟩ hgroup).1.children, if_pos rfl, htop, hinner]
    decide

end Shorthand.Tree
