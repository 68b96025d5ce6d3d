import Shorthand.Proofs.Tree.Children

/-!
# Edits of child sequences

What each operation on links does to the child sequences of a coherent tree: taking out (`remove`),
putting last (`append`), putting in front of a sibling (`insertBefore`), dissolving (`splice`) and
allocating (`push`).

There are only two changes of links behind all of them, each described link by link: a node is taken
out of a sequence (`TakenOut`), or a detached node is put between two parts of one (`PutIn`). Both
carry spelling along (`TakenOut.spells`, `PutIn.spells`); the operations are shown to be made of
them.
-/

namespace Shorthand.Tree

variable {t t' : Tree} {kids : NodeId → List NodeId} {p id : NodeId} {l r : List NodeId}

/-! ### Cutting sequences -/

/-- A member of a sequence made of two parts is in one of them. -/
theorem cut_append {α : Type} {l r l' r' : List α} {x : α} (h : l ++ r = l' ++ x :: r') :
    (∃ m, l' = l ++ m ∧ r = m ++ x :: r') ∨ (∃ m, l = l' ++ x :: m ∧ r' = m ++ r) := by
  rcases List.append_eq_append_iff.1 h with ⟨m, hl', hr⟩ | ⟨m, hl, hr⟩
  · exact Or.inl ⟨m, hl', hr⟩
  · cases m with
    | nil => exact Or.inl ⟨[], by simpa using hl.symm, by simpa using hr.symm⟩
    | cons y m =>
        obtain ⟨rfl, rfl⟩ : y = x ∧ r' = m ++ r := by simpa [eq_comm] using hr
        exact Or.inr ⟨m, hl, rfl⟩

theorem getLast?_ne_of_not_mem {x : NodeId} (h : x ∉ l) : l.getLast? ≠ some x :=
  fun hx => h (List.mem_of_getLast? hx)

theorem head?_ne_of_not_mem {x : NodeId} (h : x ∉ r) : r.head? ≠ some x :=
  fun hx => h (List.mem_of_head? hx)

/-- A node stands at one place of its sequence only. -/
theorem Spells.not_mem_cut (h : t.Spells kids) (hk : kids p = l ++ id :: r) : id ∉ l ∧ id ∉ r := by
  have hnd := h.nodup p
  rw [hk, List.nodup_middle, List.nodup_cons] at hnd
  simpa [not_or] using hnd.1

/-- What is in one sequence is not among the members of another. -/
theorem Spells.not_mem_other (h : t.Spells kids) {q x : NodeId} (hx : x ∈ kids q) (hq : q ≠ p)
    (hk : kids p = l ++ r) : x ∉ l ∧ x ∉ r := by
  have hxp : x ∉ kids p := fun hm => hq (h.eq_of_mem hx hm)
  simpa [hk, not_or] using hxp

/-- The first member is `x` only if there is nothing in front of it. -/
theorem head?_eq_some_iff {m : List NodeId} {x : NodeId} (h : x ∉ m) (r : List NodeId) :
    (m ++ x :: r).head? = some x ↔ m = [] := by
  cases m with
  | nil => simp
  | cons a m =>
      have hax : a ≠ x := fun heq => h (heq ▸ List.mem_cons_self)
      simp [hax]

/-- The last member is `x` only if there is nothing behind it. -/
theorem getLast?_eq_some_iff {m : List NodeId} {x : NodeId} (h : x ∉ m) (l : List NodeId) :
    (l ++ x :: m).getLast? = some x ↔ m = [] := by
  cases m with
  | nil => simp
  | cons a m =>
      have hlast : (l ++ x :: a :: m).getLast? = (a :: m).getLast? := by
        simp [List.getLast?_cons]
      rw [hlast]
      exact iff_of_false (getLast?_ne_of_not_mem h) (by simp)

/-- The sequence that is left when a node is taken out. -/
theorem Spells.erase_eq (h : t.Spells kids) (hk : kids p = l ++ id :: r) :
    (kids p).erase id = l ++ r := by
  rw [hk, List.erase_append_right _ (h.not_mem_cut hk).1, List.erase_cons_head]

/-- Taking a node out leaves every other sequence as it was. -/
theorem Spells.erase_of_ne (h : t.Spells kids) (hk : kids p = l ++ id :: r) {q : NodeId}
    (hq : q ≠ p) : (kids q).erase id = kids q :=
  List.erase_of_not_mem fun hm => hq (h.eq_of_mem hm (by simp [hk]))

/-! ### The two changes of links -/

/-- `id` is taken out of the sequence `l ++ id :: r` of `p`. -/
structure TakenOut (t t' : Tree) (p id : NodeId) (l r : List NodeId) : Prop where
  size : t'.size = t.size
  parent : ∀ x, t'.parent x = if x = id then none else t.parent x
  first : ∀ x, t'.firstChild x = if x = p ∧ l = [] then r.head? else t.firstChild x
  last : ∀ x, t'.lastChild x = if x = p ∧ r = [] then l.getLast? else t.lastChild x
  previous : ∀ x, t'.previous x =
    if x = id then none else if r.head? = some x then l.getLast? else t.previous x
  next : ∀ x, t'.next x =
    if x = id then none else if l.getLast? = some x then r.head? else t.next x

/-- The detached `id` is put into the sequence `l ++ r` of `p`. -/
structure PutIn (t t' : Tree) (p id : NodeId) (l r : List NodeId) : Prop where
  size : t'.size = t.size
  parent : ∀ x, t'.parent x = if x = id then some p else t.parent x
  first : ∀ x, t'.firstChild x = if x = p ∧ l = [] then some id else t.firstChild x
  last : ∀ x, t'.lastChild x = if x = p ∧ r = [] then some id else t.lastChild x
  previous : ∀ x, t'.previous x =
    if x = id then l.getLast? else if r.head? = some x then some id else t.previous x
  next : ∀ x, t'.next x =
    if x = id then r.head? else if l.getLast? = some x then some id else t.next x

namespace TakenOut

/-- Away from the gap, a node keeps its neighbours. -/
theorem keeps (hu : TakenOut t t' p id l r) {x : NodeId} (hxi : x ≠ id) (hxl : x ∉ l) (hxr : x ∉ r) :
    t'.previous x = t.previous x ∧ t'.next x = t.next x := by
  rw [hu.previous, hu.next]
  simp [hxi, getLast?_ne_of_not_mem hxl, head?_ne_of_not_mem hxr]

/-- The neighbours in the sequence that is left. Only the two nodes at the gap get another one. -/
theorem around (hu : TakenOut t t' p id l r) (h : t.Spells kids) (hk : kids p = l ++ id :: r)
    {x : NodeId} {l' r' : List NodeId} (hcut : l ++ r = l' ++ x :: r') :
    t'.previous x = l'.getLast? ∧ t'.next x = r'.head? := by
  rw [hu.previous, hu.next]
  rcases cut_append hcut with ⟨m, rfl, rfl⟩ | ⟨m, rfl, rfl⟩
  · -- The node is behind the gap, and `m` between them.
    have hold : kids p = (l ++ id :: m) ++ x :: r' := by simp [hk]
    obtain ⟨hprevious, hnext⟩ := h.around p _ x r' hold
    obtain ⟨hxl, hxi, hxm⟩ : x ∉ l ∧ x ≠ id ∧ x ∉ m := by
      simpa [not_or] using (h.not_mem_cut hold).1
    rw [if_neg hxi, if_neg hxi, if_neg (getLast?_ne_of_not_mem hxl), hprevious]
    refine ⟨?_, hnext⟩
    simp only [head?_eq_some_iff hxm]
    cases m <;> simp [List.getLast?_cons]
  · -- The node is in front of the gap, and `m` between them.
    have hold : kids p = l' ++ x :: (m ++ id :: r) := by simp [hk]
    obtain ⟨hprevious, hnext⟩ := h.around p l' x _ hold
    obtain ⟨hxm, hxi, hxr⟩ : x ∉ m ∧ x ≠ id ∧ x ∉ r := by
      simpa [not_or] using (h.not_mem_cut hold).2
    rw [if_neg hxi, if_neg hxi, if_neg (head?_ne_of_not_mem hxr), hnext]
    refine ⟨hprevious, ?_⟩
    simp only [getLast?_eq_some_iff hxm]
    cases m <;> simp

/-- The links that are left spell out the sequences without the node. -/
theorem spells (hu : TakenOut t t' p id l r) (h : t.Spells kids) (hk : kids p = l ++ id :: r) :
    t'.Spells (fun q => (kids q).erase id) where
  parent_iff := by
    intro x q
    rw [(h.nodup q).mem_erase_iff, ← h.parent_iff x q, hu.parent]
    by_cases hx : x = id <;> simp [hx]
  nodup := fun q => (h.nodup q).erase id
  first := by
    intro q
    rw [hu.first, h.first]
    by_cases hqp : q = p
    · subst hqp
      rw [h.erase_eq hk, hk]
      cases l <;> simp
    · simp [h.erase_of_ne hk hqp, hqp]
  last := by
    intro q
    rw [hu.last, h.last]
    by_cases hqp : q = p
    · subst hqp
      rw [h.erase_eq hk, hk]
      cases r <;> simp [List.getLast?_cons]
    · simp [h.erase_of_ne hk hqp, hqp]
  around := by
    intro q l' x r' hcut
    by_cases hqp : q = p
    · subst hqp
      exact hu.around h hk ((h.erase_eq hk).symm.trans hcut)
    · rw [h.erase_of_ne hk hqp] at hcut
      obtain ⟨hxl, hxr⟩ := h.not_mem_other (x := x) (by simp [hcut]) hqp hk
      obtain ⟨hxi, hxr⟩ : x ≠ id ∧ x ∉ r := by simpa [not_or] using hxr
      rw [(hu.keeps hxi hxl hxr).1, (hu.keeps hxi hxl hxr).2]
      exact h.around q l' x r' hcut
  detached := by
    intro x hx
    by_cases hxi : x = id
    · rw [hu.previous, hu.next]
      simp [hxi]
    · rw [hu.parent, if_neg hxi] at hx
      obtain ⟨hxl, -, hxr⟩ : x ∉ l ∧ x ≠ id ∧ x ∉ r := by
        simpa [hk, not_or] using h.not_mem_of_parent_eq_none hx p
      rw [(hu.keeps hxi hxl hxr).1, (hu.keeps hxi hxl hxr).2]
      exact h.detached x hx
  inside := by
    intro q x hm
    rw [hu.size]
    exact h.inside q x (List.mem_of_mem_erase hm)

end TakenOut

namespace PutIn

/-- Away from the new place, a node keeps its neighbours. -/
theorem keeps (hu : PutIn t t' p id l r) {x : NodeId} (hxi : x ≠ id) (hxl : x ∉ l) (hxr : x ∉ r) :
    t'.previous x = t.previous x ∧ t'.next x = t.next x := by
  rw [hu.previous, hu.next]
  simp [hxi, getLast?_ne_of_not_mem hxl, head?_ne_of_not_mem hxr]

/-- The neighbours in the new sequence. Only the node itself and the two around it get other ones. -/
theorem around (hu : PutIn t t' p id l r) (h : t.Spells kids) (hk : kids p = l ++ r)
    (hid : id ∉ kids p) {x : NodeId} {l' r' : List NodeId} (hcut : l ++ id :: r = l' ++ x :: r') :
    t'.previous x = l'.getLast? ∧ t'.next x = r'.head? := by
  rw [hu.previous, hu.next]
  rcases cut_append hcut with ⟨m, rfl, hm⟩ | ⟨m, rfl, rfl⟩
  · cases m with
    | nil =>
        obtain ⟨rfl, rfl⟩ : id = x ∧ r = r' := by simpa using hm
        simp
    | cons a m =>
        -- The node is behind the new one, and `m` between them.
        obtain ⟨rfl, rfl⟩ : id = a ∧ r = m ++ x :: r' := by simpa using hm
        have hold : kids p = (l ++ m) ++ x :: r' := by simp [hk]
        obtain ⟨hprevious, hnext⟩ := h.around p _ x r' hold
        obtain ⟨hxl, hxm⟩ : x ∉ l ∧ x ∉ m := by
          simpa [not_or] using (h.not_mem_cut hold).1
        have hxi : x ≠ id := fun heq => hid (by simp [hold, heq])
        rw [if_neg hxi, if_neg hxi, if_neg (getLast?_ne_of_not_mem hxl), hprevious]
        refine ⟨?_, hnext⟩
        simp only [head?_eq_some_iff hxm]
        cases m <;> simp [List.getLast?_cons]
  · -- The node is in front of the new one, and `m` between them.
    have hold : kids p = l' ++ x :: (m ++ r) := by simp [hk]
    obtain ⟨hprevious, hnext⟩ := h.around p l' x _ hold
    obtain ⟨hxm, hxr⟩ : x ∉ m ∧ x ∉ r := by
      simpa [not_or] using (h.not_mem_cut hold).2
    have hxi : x ≠ id := fun heq => hid (by simp [hold, heq])
    rw [if_neg hxi, if_neg hxi, if_neg (head?_ne_of_not_mem hxr), hnext]
    refine ⟨hprevious, ?_⟩
    simp only [getLast?_eq_some_iff hxm]
    cases m <;> simp

/-- The new links spell out the sequences with the node in its new place. -/
theorem spells (hu : PutIn t t' p id l r) (h : t.Spells kids) (hk : kids p = l ++ r)
    (hid : id.index < t.size) (hp : p.index < t.size) (hnone : t.parent id = none) :
    t'.Spells (Function.update kids p (l ++ id :: r)) where
  parent_iff := by
    intro x q
    rw [hu.parent]
    by_cases hx : x = id
    · subst hx
      by_cases hqp : q = p
      · simp [hqp]
      · simpa [Function.update_of_ne hqp, Ne.symm hqp] using h.not_mem_of_parent_eq_none hnone q
    · rw [if_neg hx, h.parent_iff x q]
      by_cases hqp : q = p
      · subst hqp
        simp [hk, hx]
      · rw [Function.update_of_ne hqp]
  nodup := by
    intro q
    by_cases hqp : q = p
    · subst hqp
      rw [Function.update_self, List.nodup_middle, List.nodup_cons, ← hk]
      exact ⟨h.not_mem_of_parent_eq_none hnone q, h.nodup q⟩
    · rw [Function.update_of_ne hqp]
      exact h.nodup q
  first := by
    intro q
    rw [hu.first, h.first]
    by_cases hqp : q = p
    · subst hqp
      rw [Function.update_self, hk]
      cases l <;> simp
    · simp [hqp]
  last := by
    intro q
    rw [hu.last, h.last]
    by_cases hqp : q = p
    · subst hqp
      rw [Function.update_self, hk]
      cases r <;> simp [List.getLast?_cons]
    · simp [hqp]
  around := by
    intro q l' x r' hcut
    by_cases hqp : q = p
    · subst hqp
      rw [Function.update_self] at hcut
      exact hu.around h hk (h.not_mem_of_parent_eq_none hnone q) hcut
    · rw [Function.update_of_ne hqp] at hcut
      have hxq : x ∈ kids q := by simp [hcut]
      have hxi : x ≠ id := fun heq => h.not_mem_of_parent_eq_none hnone q (heq ▸ hxq)
      obtain ⟨hxl, hxr⟩ := h.not_mem_other hxq hqp hk
      rw [(hu.keeps hxi hxl hxr).1, (hu.keeps hxi hxl hxr).2]
      exact h.around q l' x r' hcut
  detached := by
    intro x hx
    have hxi : x ≠ id := by
      intro heq
      rw [hu.parent, if_pos heq] at hx
      exact absurd hx (by simp)
    rw [hu.parent, if_neg hxi] at hx
    obtain ⟨hxl, hxr⟩ : x ∉ l ∧ x ∉ r := by
      simpa [hk, not_or] using h.not_mem_of_parent_eq_none hx p
    rw [(hu.keeps hxi hxl hxr).1, (hu.keeps hxi hxl hxr).2]
    exact h.detached x hx
  inside := by
    intro q x hm
    rw [hu.size]
    by_cases hqp : q = p
    · subst hqp
      rw [Function.update_self] at hm
      by_cases hx : x = id
      · exact ⟨hx ▸ hid, hp⟩
      · exact h.inside q x (by simpa [hk, hx] using hm)
    · rw [Function.update_of_ne hqp] at hm
      exact h.inside q x hm

end PutIn

/-! ### What the operations keep -/

@[simp] theorem size_relink (t : Tree) (o : Option NodeId) (p : NodeId) (f g : Links → Links) :
    (t.relink o p f g).size = t.size := by
  cases o <;> simp [relink]

@[simp] theorem root_relink (t : Tree) (o : Option NodeId) (p : NodeId) (f g : Links → Links) :
    (t.relink o p f g).root = t.root := by
  cases o <;> rfl

@[simp] theorem node_relink (t : Tree) (o : Option NodeId) (p : NodeId) (f g : Links → Links)
    (x : NodeId) : (t.relink o p f g).node x = t.node x := by
  cases o <;> simp [relink]

theorem links_relink {o : Option NodeId} (f g : Links → Links) (x : NodeId)
    (ho : ∀ a, o = some a → a.index < t.size) (hp : p.index < t.size) :
    (t.relink o p f g).links x =
      if o = some x then f (t.links x)
      else if o = none ∧ x = p then g (t.links x) else t.links x := by
  cases o with
  | none => simp [relink, links_modifyLinks x g hp]
  | some a => simp [relink, links_modifyLinks x f (ho a rfl), eq_comm]

@[simp] theorem size_remove (t : Tree) (id : NodeId) : (t.remove id).size = t.size := by
  simp only [remove]
  split <;> simp

@[simp] theorem root_remove (t : Tree) (id : NodeId) : (t.remove id).root = t.root := by
  simp only [remove]
  split <;> simp

@[simp] theorem node_remove (t : Tree) (id x : NodeId) : (t.remove id).node x = t.node x := by
  simp only [remove]
  split <;> simp

@[simp] theorem size_append (t : Tree) (p id : NodeId) : (t.append p id).size = t.size := by
  simp [append]

@[simp] theorem root_append (t : Tree) (p id : NodeId) : (t.append p id).root = t.root := by
  simp [append]

@[simp] theorem node_append (t : Tree) (p id x : NodeId) : (t.append p id).node x = t.node x := by
  simp [append]

@[simp] theorem size_insertBefore (t : Tree) (id x : NodeId) :
    (t.insertBefore id x).size = t.size := by
  simp only [insertBefore]
  split
  · rfl
  · split <;> simp

@[simp] theorem root_insertBefore (t : Tree) (id x : NodeId) :
    (t.insertBefore id x).root = t.root := by
  simp only [insertBefore]
  split
  · rfl
  · split <;> simp

@[simp] theorem node_insertBefore (t : Tree) (id x y : NodeId) :
    (t.insertBefore id x).node y = t.node y := by
  simp only [insertBefore]
  split
  · rfl
  · split <;> simp

/-- What every step of a run through some nodes keeps, the run keeps. -/
theorem foldl_keeps {α : Type} (view : Tree → α) (f : Tree → NodeId → Tree)
    (hf : ∀ t id, view (f t id) = view t) (ids : List NodeId) (t : Tree) :
    view (ids.foldl f t) = view t := by
  induction ids generalizing t with
  | nil => rfl
  | cons id ids ih => rw [List.foldl_cons, ih, hf]

@[simp] theorem size_splice (t : Tree) (id : NodeId) : (t.splice id).1.size = t.size := by
  simp only [splice, size_remove]
  exact foldl_keeps size _ (fun t c => by split <;> simp) _ t

@[simp] theorem root_splice (t : Tree) (id : NodeId) : (t.splice id).1.root = t.root := by
  simp only [splice, root_remove]
  exact foldl_keeps root _ (fun t c => by split <;> simp) _ t

@[simp] theorem node_splice (t : Tree) (id x : NodeId) : (t.splice id).1.node x = t.node x := by
  simp only [splice, node_remove]
  exact foldl_keeps (fun t => t.node x) _ (fun t c => by split <;> simp) _ t

@[simp] theorem size_foldl_append (t : Tree) (p : NodeId) (ids : List NodeId) :
    (ids.foldl (fun t id => t.append p id) t).size = t.size :=
  foldl_keeps size _ (fun t id => size_append t p id) ids t

@[simp] theorem root_foldl_append (t : Tree) (p : NodeId) (ids : List NodeId) :
    (ids.foldl (fun t id => t.append p id) t).root = t.root :=
  foldl_keeps root _ (fun t id => root_append t p id) ids t

@[simp] theorem node_foldl_append (t : Tree) (p x : NodeId) (ids : List NodeId) :
    (ids.foldl (fun t id => t.append p id) t).node x = t.node x :=
  foldl_keeps (fun t => t.node x) _ (fun t id => node_append t p id x) ids t

/-! ### Taking out -/

theorem remove_of_parent_eq_none (h : t.parent id = none) : t.remove id = t := by
  have h' : (t.links id).parent = none := h
  simp [remove, h']

/-- The links behind `remove`: all its writes, put together for any one place. -/
theorem Spells.links_remove (h : t.Spells kids) (hk : kids p = l ++ id :: r) (x : NodeId) :
    (t.remove id).links x =
      { parent := if x = id then none else t.parent x
        firstChild := if x = p ∧ l = [] then r.head? else t.firstChild x
        lastChild := if x = p ∧ r = [] then l.getLast? else t.lastChild x
        previous := if x = id then none else if r.head? = some x then l.getLast? else t.previous x
        next := if x = id then none else if l.getLast? = some x then r.head? else t.next x } := by
  have hparent : (t.links id).parent = some p := h.parent_eq (by simp [hk])
  have hprev : (t.links id).previous = l.getLast? := (h.around p l id r hk).1
  have hnext : (t.links id).next = r.head? := (h.around p l id r hk).2
  have hin : ∀ x ∈ l ++ id :: r, x.index < t.size ∧ p.index < t.size := hk ▸ h.inside p
  have hid := hin id (by simp)
  have hl : ∀ a, l.getLast? = some a → a.index < t.size := fun a ha =>
    (hin a (by simp [List.mem_of_getLast? ha])).1
  have hr : ∀ a, r.head? = some a → a.index < t.size := fun a ha =>
    (hin a (by simp [List.mem_of_head? ha])).1
  simp only [Tree.remove, hparent, hprev, hnext]
  rw [links_modifyLinks x _ (by simpa using hid.1),
    links_relink _ _ x (by simpa using hr) (by simpa using hid.2), links_relink _ _ x hl hid.2]
  simp only [parent, firstChild, lastChild, previous, next, List.head?_eq_none_iff,
    List.getLast?_eq_none_iff]
  -- Only the tests at `x` are left to compare.
  clear hin hparent hprev hnext hl hr hid hk h
  split_ifs <;> simp_all

theorem Spells.takenOut_remove (h : t.Spells kids) (hk : kids p = l ++ id :: r) :
    TakenOut t (t.remove id) p id l r := by
  refine ⟨by simp, ?_, ?_, ?_, ?_, ?_⟩ <;>
  · intro x
    simp only [parent, firstChild, lastChild, previous, next, h.links_remove hk]

/-- `remove` takes the node out of its sequence. -/
theorem Spells.remove (h : t.Spells kids) (id : NodeId) :
    (t.remove id).Spells (fun q => (kids q).erase id) := by
  cases hp : t.parent id with
  | none =>
      have hsame : (fun q => (kids q).erase id) = kids :=
        funext fun q => List.erase_of_not_mem (h.not_mem_of_parent_eq_none hp q)
      rw [remove_of_parent_eq_none hp, hsame]
      exact h
  | some p =>
      obtain ⟨l, r, hk⟩ := List.append_of_mem ((h.parent_iff id p).1 hp)
      exact (h.takenOut_remove hk).spells h hk

theorem Spells.parent_remove (h : t.Spells kids) (id x : NodeId) :
    (t.remove id).parent x = if x = id then none else t.parent x := by
  cases hp : t.parent id with
  | none =>
      rw [remove_of_parent_eq_none hp]
      by_cases hx : x = id <;> simp [hx, hp]
  | some p =>
      obtain ⟨l, r, hk⟩ := List.append_of_mem ((h.parent_iff id p).1 hp)
      exact (h.takenOut_remove hk).parent x

/-! ### Putting in -/

/-- The links behind `append`: its writes to a tree without the node, put together for any one
place. -/
theorem Spells.links_append (h : t.Spells kids) (hid : id.index < t.size) (hp : p.index < t.size)
    (x : NodeId) :
    (t.append p id).links x =
      { parent := if x = id then some p else (t.remove id).parent x
        firstChild := if x = p ∧ (kids p).erase id = [] then some id else (t.remove id).firstChild x
        lastChild := if x = p then some id else (t.remove id).lastChild x
        previous := if x = id then ((kids p).erase id).getLast? else (t.remove id).previous x
        next :=
          if ((kids p).erase id).getLast? = some x then some id else (t.remove id).next x } := by
  have hlast := (h.remove id).last p
  have hmem : id ∉ (kids p).erase id := (h.nodup p).not_mem_erase
  have hl : ∀ a, ((kids p).erase id).getLast? = some a → a.index < t.size := fun a ha =>
    (h.inside p a (List.mem_of_mem_erase (List.mem_of_getLast? ha))).1
  generalize (kids p).erase id = ks at hlast hmem hl ⊢
  simp only [Tree.append, hlast]
  rw [links_modifyLinks x _ (by simpa using hp),
    links_relink _ _ x (by simpa using hl) (by simpa using hp),
    links_modifyLinks x _ (by simpa using hid)]
  simp only [parent, firstChild, lastChild, previous, next, List.getLast?_eq_none_iff]
  clear hl hlast hmem hid hp h
  split_ifs <;> simp_all

/-- `append` puts the node, taken out first, behind what is left of the sequence. -/
theorem Spells.putIn_append (h : t.Spells kids) (hid : id.index < t.size) (hp : p.index < t.size) :
    PutIn (t.remove id) (t.append p id) p id ((kids p).erase id) [] := by
  have hnone : (t.remove id).parent id = none := by simp [h.parent_remove]
  have hdetached := (h.remove id).detached id hnone
  have hmem : id ∉ (kids p).erase id := (h.nodup p).not_mem_erase
  constructor
  case size => simp
  case parent =>
    intro x
    simp only [parent, h.links_append hid hp]
  case first =>
    intro x
    simp only [firstChild, h.links_append hid hp]
  case last =>
    intro x
    simp only [lastChild, h.links_append hid hp, and_true]
  case previous =>
    intro x
    simp [previous, h.links_append hid hp]
  case next =>
    intro x
    rw [next, h.links_append hid hp]
    by_cases hx : x = id
    · subst hx
      simp [getLast?_ne_of_not_mem hmem, hdetached.2]
    · simp [hx]

/-- `append` makes the node the last of its new sequence. -/
theorem Spells.append (h : t.Spells kids) (hid : id.index < t.size) (hp : p.index < t.size) :
    (t.append p id).Spells
      (Function.update (fun q => (kids q).erase id) p ((kids p).erase id ++ [id])) :=
  (h.putIn_append hid hp).spells (h.remove id) (by simp) (by simpa using hid) (by simpa using hp)
    (by simp [h.parent_remove])

theorem Spells.parent_append (h : t.Spells kids) (hid : id.index < t.size) (hp : p.index < t.size)
    (x : NodeId) : (t.append p id).parent x = if x = id then some p else t.parent x := by
  rw [(h.putIn_append hid hp).parent, h.parent_remove]
  by_cases hx : x = id <;> simp [hx]

theorem insertBefore_of_parent_eq_none {s : NodeId} (h : t.parent s = none) :
    t.insertBefore id s = t := by
  simp [insertBefore, h]

theorem insertBefore_self (t : Tree) (id : NodeId) : t.insertBefore id id = t := by
  simp [insertBefore]

/-- The links behind `insertBefore`: its writes to a tree without the node, put together for any one
place. The neighbour of the sibling is looked up in that tree, so it is never the node itself. -/
theorem Spells.links_insertBefore (h : t.Spells kids) {s : NodeId} (hid : id.index < t.size)
    (hne : id ≠ s) (hk : (kids p).erase id = l ++ s :: r) (x : NodeId) :
    (t.insertBefore id s).links x =
      { parent := if x = id then some p else (t.remove id).parent x
        firstChild := if x = p ∧ l = [] then some id else (t.remove id).firstChild x
        lastChild := (t.remove id).lastChild x
        previous := if x = s then some id else if x = id then l.getLast? else (t.remove id).previous x
        next := if l.getLast? = some x then some id else
          if x = id then some s else (t.remove id).next x } := by
  have hsp : s ∈ (kids p).erase id := by simp [hk]
  have hps : t.parent s = some p := h.parent_eq (List.mem_of_mem_erase hsp)
  have hin := h.inside p s (List.mem_of_mem_erase hsp)
  have hprev : (t.remove id).previous s = l.getLast? := ((h.remove id).around p l s r hk).1
  have hl : ∀ a, l.getLast? = some a → a.index < t.size := by
    intro a ha
    have ha' : a ∈ (kids p).erase id := by simp [hk, List.mem_of_getLast? ha]
    exact (h.inside p a (List.mem_of_mem_erase ha')).1
  simp only [Tree.insertBefore, hne, if_false, hps, hprev]
  rw [links_relink _ _ x (by simpa using hl) (by simpa using hin.2),
    links_modifyLinks x _ (by simpa using hin.1), links_modifyLinks x _ (by simpa using hid)]
  simp only [parent, firstChild, lastChild, previous, next, List.getLast?_eq_none_iff]
  clear hl hprev hin hps hsp hk hid h
  split_ifs <;> simp_all

/-- `insertBefore` puts the node, taken out first, in front of the sibling. -/
theorem Spells.putIn_insertBefore (h : t.Spells kids) {s : NodeId} (hid : id.index < t.size)
    (hne : id ≠ s) (hk : (kids p).erase id = l ++ s :: r) :
    PutIn (t.remove id) (t.insertBefore id s) p id l (s :: r) := by
  have hlinks := h.links_insertBefore hid hne hk
  have hmem : id ∉ l := by
    have hnot : id ∉ (kids p).erase id := (h.nodup p).not_mem_erase
    simp [hk, not_or] at hnot
    exact hnot.1
  constructor
  case size => simp
  case parent =>
    intro x
    simp only [parent, hlinks]
  case first =>
    intro x
    simp only [firstChild, hlinks]
  case last =>
    intro x
    simp [lastChild, hlinks]
  case previous =>
    intro x
    rw [previous, hlinks]
    by_cases hx : x = id
    · subst hx
      simp [hne]
    · simp [hx, eq_comm]
  case next =>
    intro x
    rw [next, hlinks]
    by_cases hx : x = id
    · subst hx
      simp [getLast?_ne_of_not_mem hmem]
    · simp [hx]

/-- `insertBefore` puts the node right in front of its new sibling. -/
theorem Spells.insertBefore (h : t.Spells kids) {s : NodeId} (hid : id.index < t.size)
    (hne : id ≠ s) (hk : (kids p).erase id = l ++ s :: r) :
    (t.insertBefore id s).Spells
      (Function.update (fun q => (kids q).erase id) p (l ++ id :: s :: r)) := by
  have hs : s ∈ (kids p).erase id := by simp [hk]
  have hp : p.index < t.size := (h.inside p s (List.mem_of_mem_erase hs)).2
  exact (h.putIn_insertBefore hid hne hk).spells (h.remove id) hk (by simpa using hid)
    (by simpa using hp) (by simp [h.parent_remove])

theorem Spells.parent_insertBefore (h : t.Spells kids) {s : NodeId} (hid : id.index < t.size)
    (hne : id ≠ s) (hs : t.parent s = some p) (x : NodeId) :
    (t.insertBefore id s).parent x = if x = id then some p else t.parent x := by
  have hmem : s ∈ (kids p).erase id :=
    (h.nodup p).mem_erase_iff.2 ⟨Ne.symm hne, (h.parent_iff s p).1 hs⟩
  obtain ⟨l, r, hk⟩ := List.append_of_mem hmem
  rw [(h.putIn_insertBefore hid hne hk).parent, h.parent_remove]
  by_cases hx : x = id <;> simp [hx]

/-! ### Allocating -/

theorem slot_push (t : Tree) (n : Node) (x : NodeId) :
    (t.push n).slot x = if x = t.nextId then { node := n } else t.slot x := by
  by_cases hx : x = t.nextId
  · rw [if_pos hx, hx, slot_push_self]
  · rw [if_neg hx, slot_push_of_ne n hx]

/-- A new node changes no link. -/
@[simp] theorem links_push (t : Tree) (n : Node) (x : NodeId) : (t.push n).links x = t.links x := by
  rw [links, slot_push]
  by_cases hx : x = t.nextId
  · subst hx
    rw [if_pos rfl, links_of_size_le (by simp [nextId])]
  · rw [if_neg hx, links]

theorem node_push (t : Tree) (n : Node) (x : NodeId) :
    (t.push n).node x = if x = t.nextId then n else t.node x := by
  rw [node, slot_push]
  by_cases hx : x = t.nextId <;> simp [hx, node]

theorem node_push_of_lt {x : NodeId} (n : Node) (h : x.index < t.size) :
    (t.push n).node x = t.node x := by
  rw [node_push, if_neg]
  intro hx
  rw [hx] at h
  exact absurd h (Nat.lt_irrefl _)

/-- Spelling depends on links alone, as long as no node is lost. -/
theorem Spells.of_links_eq (h : t.Spells kids) (hlinks : ∀ x, t'.links x = t.links x)
    (hsize : t.size ≤ t'.size) : t'.Spells kids where
  parent_iff := by
    intro x q
    rw [parent, hlinks]
    exact h.parent_iff x q
  nodup := h.nodup
  first := by
    intro q
    rw [firstChild, hlinks]
    exact h.first q
  last := by
    intro q
    rw [lastChild, hlinks]
    exact h.last q
  around := by
    intro q l x r hk
    rw [previous, next, hlinks]
    exact h.around q l x r hk
  detached := by
    intro x hx
    rw [parent, hlinks] at hx
    rw [previous, next, hlinks]
    exact h.detached x hx
  inside := by
    intro q x hm
    obtain ⟨hx, hq⟩ := h.inside q x hm
    exact ⟨Nat.lt_of_lt_of_le hx hsize, Nat.lt_of_lt_of_le hq hsize⟩

theorem Spells.push (h : t.Spells kids) (n : Node) : (t.push n).Spells kids :=
  h.of_links_eq (links_push t n) (by simp)

theorem Spells.modifyNode (h : t.Spells kids) (id : NodeId) (f : Node → Node) :
    (t.modifyNode id f).Spells kids :=
  h.of_links_eq (fun x => links_modifyNode t id x f) (by simp)

end Shorthand.Tree
