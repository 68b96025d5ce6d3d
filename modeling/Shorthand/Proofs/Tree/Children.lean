import Mathlib.Data.List.Nodup
import Mathlib.Tactic.Choose
import Shorthand.Tree.Coherent
import Shorthand.Tree.Edit

/-!
# Child sequences

**A coherent tree is its child sequences.** The links of a node are read off the sequences of
children of all nodes: `Spells t kids` says that they spell out the sequence `kids p` at every place
`p`. It is coherence with the sequences made explicit (`Coherent.spells`, `Spells.coherent`), and
the sequences are the ones that following the links finds (`Spells.children_eq`), so that an
operation on links is described by what it does to `kids`.

Design points:

* a place without a node has no links, so it has an empty sequence and is in none; nothing here has a
  side condition on places, except where a node is written to;
* neighbours are said by cutting a sequence at a node, `l ++ id :: r`, which is the form that every
  edit of a sequence needs.
-/

namespace Shorthand.Tree

/-! ### Links and data after a change of one slot -/

theorem slot_modify (t : Tree) (id x : NodeId) (f : Slot → Slot) :
    (t.modify id f).slot x =
      if x = id ∧ id.index < t.size then f (t.slot x) else t.slot x := by
  by_cases hx : x = id
  · subst hx
    by_cases hlt : x.index < t.size
    · rw [slot_modify_self f hlt, if_pos ⟨rfl, hlt⟩]
    · rw [if_neg (fun h => hlt h.2)]
      have hnone : t.slots[x.index]? = none := Array.getElem?_eq_none (Nat.le_of_not_lt hlt)
      simp [modify, slot, Array.getElem?_modify, hnone]
  · rw [slot_modify_of_ne f hx, if_neg (fun h => hx h.1)]

/-- A place without a node holds nothing. -/
theorem slot_of_size_le {t : Tree} {id : NodeId} (h : t.size ≤ id.index) : t.slot id = {} := by
  have hnone : t.slots[id.index]? = none := Array.getElem?_eq_none h
  simp [slot, hnone]

theorem links_of_size_le {t : Tree} {id : NodeId} (h : t.size ≤ id.index) : t.links id = {} := by
  rw [links, slot_of_size_le h]

@[simp] theorem size_modifyLinks (t : Tree) (id : NodeId) (f : Links → Links) :
    (t.modifyLinks id f).size = t.size :=
  size_modify ..

@[simp] theorem root_modifyLinks (t : Tree) (id : NodeId) (f : Links → Links) :
    (t.modifyLinks id f).root = t.root := rfl

@[simp] theorem node_modifyLinks (t : Tree) (id x : NodeId) (f : Links → Links) :
    (t.modifyLinks id f).node x = t.node x := by
  simp only [node, modifyLinks, slot_modify]
  split <;> rfl

theorem links_modifyLinks {t : Tree} {id : NodeId} (x : NodeId) (f : Links → Links)
    (h : id.index < t.size) :
    (t.modifyLinks id f).links x = if x = id then f (t.links x) else t.links x := by
  simp only [links, modifyLinks, slot_modify, h, and_true]
  split <;> rfl

@[simp] theorem size_modifyNode (t : Tree) (id : NodeId) (f : Node → Node) :
    (t.modifyNode id f).size = t.size :=
  size_modify ..

@[simp] theorem root_modifyNode (t : Tree) (id : NodeId) (f : Node → Node) :
    (t.modifyNode id f).root = t.root := rfl

@[simp] theorem links_modifyNode (t : Tree) (id x : NodeId) (f : Node → Node) :
    (t.modifyNode id f).links x = t.links x := by
  simp only [links, modifyNode, slot_modify]
  split <;> rfl

theorem node_modifyNode {t : Tree} {id : NodeId} (x : NodeId) (f : Node → Node)
    (h : id.index < t.size) :
    (t.modifyNode id f).node x = if x = id then f (t.node x) else t.node x := by
  simp only [node, modifyNode, slot_modify, h, and_true]
  split <;> rfl

theorem node_modifyNode_of_ne {t : Tree} {id x : NodeId} (f : Node → Node) (h : x ≠ id) :
    (t.modifyNode id f).node x = t.node x := by
  simp only [node, modifyNode, slot_modify, h, false_and, if_false]

/-! ### Sequences spelled out -/

/-- Distinct nodes of a tree are not more than it has. -/
theorem length_le_size_of_nodup {t : Tree} {ids : List NodeId} (hnd : ids.Nodup)
    (hin : ∀ x ∈ ids, x.index < t.size) : ids.length ≤ t.size := by
  have hmap : (ids.map NodeId.index).Nodup := by
    refine hnd.map ?_
    rintro ⟨a⟩ ⟨b⟩ hab
    simpa using hab
  have hsub : ids.map NodeId.index ⊆ List.range t.size := by
    intro i hi
    obtain ⟨x, hx, rfl⟩ := List.mem_map.1 hi
    exact List.mem_range.2 (hin x hx)
  have hle := hmap.length_le_of_subset hsub
  simpa using hle

/-- The links of a tree spell out the child sequences `kids`, one for each place. -/
structure Spells (t : Tree) (kids : NodeId → List NodeId) : Prop where
  parent_iff : ∀ id p, t.parent id = some p ↔ id ∈ kids p
  nodup : ∀ p, (kids p).Nodup
  first : ∀ p, t.firstChild p = (kids p).head?
  last : ∀ p, t.lastChild p = (kids p).getLast?
  around : ∀ p l id r, kids p = l ++ id :: r →
    t.previous id = l.getLast? ∧ t.next id = r.head?
  detached : ∀ id, t.parent id = none → t.previous id = none ∧ t.next id = none
  inside : ∀ p id, id ∈ kids p → id.index < t.size ∧ p.index < t.size

namespace Spells

variable {t : Tree} {kids : NodeId → List NodeId}

theorem parent_eq (h : t.Spells kids) {id p : NodeId} (hm : id ∈ kids p) : t.parent id = some p :=
  (h.parent_iff id p).2 hm

/-- No node is in two sequences. -/
theorem eq_of_mem (h : t.Spells kids) {id p q : NodeId} (hp : id ∈ kids p) (hq : id ∈ kids q) :
    p = q :=
  Option.some.inj ((h.parent_eq hp).symm.trans (h.parent_eq hq))

theorem not_mem_of_parent_eq_none (h : t.Spells kids) {id : NodeId} (hn : t.parent id = none)
    (p : NodeId) : id ∉ kids p := by
  intro hm
  rw [h.parent_eq hm] at hn
  exact absurd hn (by simp)

/-- A node without place is in no sequence and has none. -/
theorem kids_eq_nil (h : t.Spells kids) {p : NodeId} (hp : t.size ≤ p.index) : kids p = [] := by
  cases hk : kids p with
  | nil => rfl
  | cons id r =>
      have hin := (h.inside p id (by simp [hk])).2
      omega

/-- A sequence has no more members than there are nodes. -/
theorem length_le_size (h : t.Spells kids) (p : NodeId) : (kids p).length ≤ t.size :=
  length_le_size_of_nodup (h.nodup p) fun id hm => (h.inside p id hm).1

/-- Following the links from the middle of a sequence finds the rest of it. -/
theorem chain_eq (h : t.Spells kids) {p : NodeId} :
    ∀ (r l found : List NodeId) (steps : Nat), kids p = l ++ r → r.length ≤ steps →
      t.chain found steps r.head? = found.reverse ++ r
  | [], l, found, steps, _, _ => by
      cases steps <;> simp [chain]
  | id :: r, l, found, 0, _, hle => by simp at hle
  | id :: r, l, found, steps + 1, hk, hle => by
      have hnext : t.next id = r.head? := (h.around p l id r hk).2
      simp only [List.head?_cons, chain, hnext]
      rw [h.chain_eq (p := p) r (l ++ [id]) (id :: found) steps (by simp [hk]) (by simpa using hle)]
      simp

/-- The sequences that are spelled out are the ones found along the links. -/
theorem children_eq (h : t.Spells kids) (p : NodeId) : t.children p = kids p := by
  rw [children, h.first p]
  exact h.chain_eq (kids p) [] [] t.size rfl (h.length_le_size p)

theorem children_eq_fun (h : t.Spells kids) : t.children = kids :=
  funext h.children_eq

end Spells

/-! ### Coherence as spelling -/

/-- Neighbours by position, for a sequence cut at one member. -/
theorem Children.around {t : Tree} {p : NodeId} {ids : List NodeId} (h : t.Children p ids)
    {l r : List NodeId} {id : NodeId} (hk : ids = l ++ id :: r) :
    t.previous id = l.getLast? ∧ t.next id = r.head? := by
  subst hk
  constructor
  · rcases List.eq_nil_or_concat l with rfl | ⟨l', q, rfl⟩
    · exact h.headPrevious id (by simp)
    · rw [h.previous l'.length id (by simp)]
      simp
  · rw [h.next l.length id (by simp)]
    simp [List.getElem?_append_right, List.head?_eq_getElem?]

/-- The links of a coherent tree spell out any sequences that are those of its nodes, and empty at
places without a node. -/
theorem Coherent.spells_of_children {t : Tree} (h : t.Coherent) {kids : NodeId → List NodeId}
    (hkids : ∀ p, t.Children p (kids p) ∨ (t.size ≤ p.index ∧ kids p = [])) : t.Spells kids where
  parent_iff := by
    intro id p
    rcases hkids p with hc | ⟨hp, hk⟩
    · by_cases hid : id.index < t.size
      · exact (hc.mem_iff id hid).symm
      · have hnone : t.parent id = none := by
          rw [Tree.parent, links_of_size_le (Nat.le_of_not_lt hid)]
        rw [hnone]
        exact ⟨fun hm => absurd hm (by simp), fun hm => absurd (hc.inside id hm) hid⟩
    · rw [hk]
      refine ⟨fun hm => ?_, fun hm => absurd hm (by simp)⟩
      exact absurd (h.parent id p hm) (Nat.not_lt.2 hp)
  nodup := by
    intro p
    rcases hkids p with hc | ⟨_, hk⟩
    · exact hc.nodup
    · rw [hk]
      exact List.nodup_nil
  first := by
    intro p
    rcases hkids p with hc | ⟨hp, hk⟩
    · exact hc.first
    · rw [hk, firstChild, links_of_size_le hp]
      rfl
  last := by
    intro p
    rcases hkids p with hc | ⟨hp, hk⟩
    · exact hc.last
    · rw [hk, lastChild, links_of_size_le hp]
      rfl
  around := by
    intro p l id r hk
    rcases hkids p with hc | ⟨_, hnil⟩
    · exact hc.around hk
    · rw [hnil] at hk
      simp at hk
  detached := h.detached
  inside := by
    intro p id hm
    rcases hkids p with hc | ⟨_, hk⟩
    · refine ⟨hc.inside id hm, h.parent id p ?_⟩
      exact (hc.mem_iff id (hc.inside id hm)).1 hm
    · rw [hk] at hm
      simp at hm

theorem Coherent.exists_spells {t : Tree} (h : t.Coherent) : ∃ kids, t.Spells kids := by
  have hall : ∀ p, ∃ ids, t.Children p ids ∨ (t.size ≤ p.index ∧ ids = []) := by
    intro p
    by_cases hp : p.index < t.size
    · obtain ⟨ids, hids⟩ := h.children p hp
      exact ⟨ids, Or.inl hids⟩
    · exact ⟨[], Or.inr ⟨Nat.le_of_not_lt hp, rfl⟩⟩
  choose kids hkids using hall
  exact ⟨kids, h.spells_of_children hkids⟩

/-- The links of a coherent tree spell out the sequences that following them finds. -/
theorem Coherent.spells {t : Tree} (h : t.Coherent) : t.Spells t.children := by
  obtain ⟨kids, hkids⟩ := h.exists_spells
  rw [hkids.children_eq_fun]
  exact hkids

theorem Spells.toChildren {t : Tree} {kids : NodeId → List NodeId} (h : t.Spells kids) (p : NodeId) :
    t.Children p (kids p) where
  nodup := h.nodup p
  first := h.first p
  last := h.last p
  mem_iff := fun id _ => (h.parent_iff id p).symm
  inside := fun id hm => (h.inside p id hm).1
  next := by
    intro i id hi
    obtain ⟨hlt, hget⟩ := List.getElem?_eq_some_iff.1 hi
    have hcut : kids p = (kids p).take i ++ id :: (kids p).drop (i + 1) := by
      rw [← hget, List.getElem_cons_drop, List.take_append_drop]
    rw [(h.around p _ id _ hcut).2, List.head?_drop]
  previous := by
    intro i id hi
    obtain ⟨hlt, hget⟩ := List.getElem?_eq_some_iff.1 hi
    have hcut : kids p = (kids p).take (i + 1) ++ id :: (kids p).drop (i + 2) := by
      rw [← hget, List.getElem_cons_drop, List.take_append_drop]
    rw [(h.around p _ id _ hcut).1, List.getLast?_take]
    simp [List.getElem?_eq_getElem (Nat.lt_of_succ_lt hlt)]
  headPrevious := by
    intro id hid
    cases hk : kids p with
    | nil => simp [hk] at hid
    | cons a r =>
        have ha : a = id := by simpa [hk] using hid
        subst ha
        exact (h.around p [] a r (by simp [hk])).1

/-- **Coherence is spelling.** -/
theorem Spells.coherent {t : Tree} {kids : NodeId → List NodeId} (h : t.Spells kids)
    (hroot : t.root.index < t.size) : t.Coherent where
  root := hroot
  children := fun p _ => ⟨kids p, h.toChildren p⟩
  parent := fun id p hp => (h.inside p id ((h.parent_iff id p).1 hp)).2
  detached := h.detached

end Shorthand.Tree
