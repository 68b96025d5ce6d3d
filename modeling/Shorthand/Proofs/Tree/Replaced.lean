import Shorthand.Proofs.Tree.Copy

/-!
# Replacing siblings

`Replaced t t' p l old new r` says all that a proof about a larger tree wants to know of a change:
below `p`, between the siblings `l` and `r`, the siblings `old` have given way to `new`; the tree is
sound as before; and what was neither below `old` nor `p` itself is untouched. Where the new
siblings come from does not matter.

Changes one after the other (`Replaced.trans`, `Replaced.andThen`) and changes further down
(`Replaced.nested`) are changes of the same kind, and so is each operation on links.
-/

namespace Shorthand.Tree

variable {t t' t'' : Tree} {p : NodeId} {l old mid new r : List NodeId}

/-- A node of the tree that is not below any of the given ones. -/
structure Outside (t : Tree) (ids : List NodeId) (x : NodeId) : Prop where
  lt : x.index < t.size
  not_below : ∀ a ∈ ids, ¬t.Below a x

/-- The siblings `old` below `p`, between `l` and `r`, have been replaced by `new`. -/
structure Replaced (t t' : Tree) (p : NodeId) (l old new r : List NodeId) : Prop where
  sound : t.Sound
  sound' : t'.Sound
  root : t'.root = t.root
  size_le : t.size ≤ t'.size
  children : t.children p = l ++ old ++ r
  children' : t'.children p = l ++ new ++ r
  node : ∀ x, t.Outside old x → t'.node x = t.node x
  parent : ∀ x, t.Outside old x → t'.parent x = t.parent x
  other : ∀ x, t.Outside old x → x ≠ p → t'.children x = t.children x

namespace Replaced

theorem refl (h : t.Sound) (hk : t.children p = l ++ old ++ r) : Replaced t t p l old old r :=
  ⟨h, h, rfl, Nat.le_refl _, hk, hk, fun _ _ => rfl, fun _ _ => rfl, fun _ _ _ => rfl⟩

/-! ### More siblings than were touched -/

theorem widenRight {m : List NodeId} (h : Replaced t t' p l old new (m ++ r)) :
    Replaced t t' p l (old ++ m) (new ++ m) r := by
  have hout : ∀ x, t.Outside (old ++ m) x → t.Outside old x := fun x hx =>
    ⟨hx.lt, fun a ha => hx.not_below a (List.mem_append_left _ ha)⟩
  exact ⟨h.sound, h.sound', h.root, h.size_le, by rw [h.children]; simp, by rw [h.children']; simp,
    fun x hx => h.node x (hout x hx), fun x hx => h.parent x (hout x hx),
    fun x hx => h.other x (hout x hx)⟩

theorem widenLeft {m : List NodeId} (h : Replaced t t' p (l ++ m) old new r) :
    Replaced t t' p l (m ++ old) (m ++ new) r := by
  have hout : ∀ x, t.Outside (m ++ old) x → t.Outside old x := fun x hx =>
    ⟨hx.lt, fun a ha => hx.not_below a (List.mem_append_right _ ha)⟩
  exact ⟨h.sound, h.sound', h.root, h.size_le, by rw [h.children]; simp, by rw [h.children']; simp,
    fun x hx => h.node x (hout x hx), fun x hx => h.parent x (hout x hx),
    fun x hx => h.other x (hout x hx)⟩

/-! ### What is beside the replaced siblings -/

theorem parent_old (h : Replaced t t' p l old new r) {a : NodeId} (ha : a ∈ old) :
    t.parent a = some p :=
  h.sound.parent_eq_some_iff.2 (by rw [h.children]; simp [ha])

theorem parent_new (h : Replaced t t' p l old new r) {a : NodeId} (ha : a ∈ new) :
    t'.parent a = some p :=
  h.sound'.parent_eq_some_iff.2 (by rw [h.children']; simp [ha])

theorem parent_beside (h : Replaced t t' p l old new r) {c : NodeId} (hc : c ∈ l ++ r) :
    t.parent c = some p := by
  refine h.sound.parent_eq_some_iff.2 ?_
  rw [h.children]
  rcases List.mem_append.1 hc with hc | hc <;> simp [hc]

/-- What is below another sibling is outside, and is not the parent. -/
theorem outside_beside (h : Replaced t t' p l old new r) {c x : NodeId} (hc : c ∈ l ++ r)
    (hx : t.Below c x) : t.Outside old x ∧ x ≠ p := by
  have hcp := h.parent_beside hc
  refine ⟨⟨?_, ?_⟩, ?_⟩
  · exact h.sound.lt_of_below hx (h.sound.children_lt (h.sound.parent_eq_some_iff.1 hcp)).1
  · intro a ha
    refine h.sound.disjoint hcp (h.parent_old ha) ?_ hx
    rintro rfl
    have hnd := h.sound.nodup_children p
    rw [h.children, List.append_assoc, List.nodup_append'] at hnd
    rcases List.mem_append.1 hc with hc | hc
    · exact hnd.2.2 hc (List.mem_append_left _ ha)
    · exact (List.nodup_append'.1 hnd.2.1).2.2 ha hc
  · rintro rfl
    exact h.sound.acyclic.not_below_of_parent hcp hx

theorem branch_beside (h : Replaced t t' p l old new r) {c : NodeId} (hc : c ∈ l ++ r) :
    t'.branch c = t.branch c := by
  refine h.sound.branch_congr h.sound' fun x hx => ?_
  obtain ⟨hout, hne⟩ := h.outside_beside hc hx
  exact ⟨h.node x hout, h.other x hout hne⟩

theorem map_branch_right (h : Replaced t t' p l old new r) : r.map t'.branch = r.map t.branch :=
  List.map_congr_left fun _ hc => h.branch_beside (List.mem_append_right _ hc)

/-- No outside node is below the new siblings. -/
theorem not_below_new (h : Replaced t t' p l old new r) {a x : NodeId} (ha : a ∈ new)
    (hx : t.Outside old x) : ¬t'.Below a x := by
  intro hb
  induction hb with
  | refl =>
      have hap : t.parent a = some p := (h.parent a hx).symm.trans (h.parent_new ha)
      have hmem := h.sound.parent_eq_some_iff.1 hap
      have hnd := h.sound'.nodup_children p
      rw [h.children', List.append_assoc, List.nodup_append'] at hnd
      rw [h.children, List.append_assoc, List.mem_append, List.mem_append] at hmem
      rcases hmem with hl | ho | hr
      · exact hnd.2.2 hl (List.mem_append_left _ ha)
      · exact hx.not_below a ho (Below.refl a)
      · exact (List.nodup_append'.1 hnd.2.1).2.2 ha hr
  | tail _ hq ih =>
      rw [h.parent _ hx] at hq
      refine ih ⟨(h.sound.children_lt (h.sound.parent_eq_some_iff.1 hq)).2, fun a ha hb => ?_⟩
      exact hx.not_below a ha (hb.child hq)

/-! ### Changes one after the other -/

theorem trans (h : Replaced t t' p l old mid r) (h' : Replaced t' t'' p l mid new r) :
    Replaced t t'' p l old new r := by
  have hout : ∀ x, t.Outside old x → t'.Outside mid x := fun x hx =>
    ⟨Nat.lt_of_lt_of_le hx.lt h.size_le, fun a ha => h.not_below_new ha hx⟩
  refine ⟨h.sound, h'.sound', h'.root.trans h.root, Nat.le_trans h.size_le h'.size_le, h.children,
    h'.children', ?_, ?_, ?_⟩
  · exact fun x hx => (h'.node x (hout x hx)).trans (h.node x hx)
  · exact fun x hx => (h'.parent x (hout x hx)).trans (h.parent x hx)
  · exact fun x hx hp => (h'.other x (hout x hx) hp).trans (h.other x hx hp)

/-- Changes of neighbouring siblings. -/
theorem andThen {old' new' : List NodeId} (h : Replaced t t' p l old new (old' ++ r))
    (h' : Replaced t' t'' p (l ++ new) old' new' r) :
    Replaced t t'' p l (old ++ old') (new ++ new') r :=
  h.widenRight.trans h'.widenLeft

/-- A change further down. -/
theorem nested {id : NodeId} (h : Replaced t t' id [] old new []) (hk : t.children p = l ++ id :: r) :
    Replaced t t' p l [id] [id] r ∧ t'.branch id = .mk (t.node id) (new.map t'.branch) := by
  have hid : t.parent id = some p := h.sound.parent_eq_some_iff.2 (by simp [hk])
  have hbelow : ∀ {a x : NodeId}, a ∈ old → t.Below a x → t.Below id x := fun ha hx =>
    Below.of_parent (h.parent_old ha) hx
  have hout : ∀ x, t.Outside [id] x → t.Outside old x ∧ x ≠ id := by
    intro x hx
    have hx' := hx.not_below id (by simp)
    exact ⟨⟨hx.lt, fun a ha hb => hx' (hbelow ha hb)⟩, fun he => hx' (he ▸ Below.refl x)⟩
  have hp : t.Outside old p ∧ p ≠ id := by
    refine hout p ⟨(h.sound.children_lt (h.sound.parent_eq_some_iff.1 hid)).2, fun a ha => ?_⟩
    obtain rfl := List.mem_singleton.1 ha
    exact h.sound.acyclic.not_below_of_parent hid
  have hself : t.Outside old id := by
    refine ⟨(h.sound.children_lt (h.sound.parent_eq_some_iff.1 hid)).1, fun a ha hb => ?_⟩
    exact h.sound.acyclic.not_below_of_parent (h.parent_old ha) hb
  constructor
  · exact {
      sound := h.sound
      sound' := h.sound'
      root := h.root
      size_le := h.size_le
      children := by simp [hk]
      children' := by
        rw [h.other p hp.1 hp.2, hk]
        simp
      node := fun x hx => h.node x (hout x hx).1
      parent := fun x hx => h.parent x (hout x hx).1
      other := fun x hx _ => h.other x (hout x hx).1 (hout x hx).2 }
  · rw [h.sound'.branch_eq, h.node id hself, h.children']
    simp

end Replaced

/-! ### The operations -/

variable {id : NodeId}

theorem Outside.ne {x : NodeId} (h : t.Outside [id] x) : x ≠ id := by
  rintro rfl
  exact h.not_below x (by simp) (Below.refl x)

theorem Sound.replaced_remove (h : t.Sound) (hk : t.children p = l ++ id :: r) :
    Replaced t (t.remove id) p l [id] [] r := by
  refine ⟨h, h.remove id, root_remove t id, by simp, by simp [hk], ?_, fun _ _ => by simp, ?_, ?_⟩
  · rw [h.children_remove, hk, List.erase_append_right _ (h.spells.not_mem_cut hk).1,
      List.erase_cons_head, List.append_nil]
  · intro x hx
    rw [h.parent_remove, if_neg hx.ne]
  · intro x _ hxp
    rw [h.children_remove]
    exact List.erase_of_not_mem fun hm => hxp (h.spells.eq_of_mem hm (by simp [hk]))

/-- Where the children of the parents are known, so are the parents. -/
theorem Sound.parent_congr (h : t.Sound) (h' : t'.Sound) {x : NodeId}
    (hkids : ∀ q, x ∈ t'.children q ↔ x ∈ t.children q) : t'.parent x = t.parent x := by
  refine Option.ext fun q => ?_
  rw [h.parent_eq_some_iff, h'.parent_eq_some_iff, hkids]

theorem Sound.replaced_splice (h : t.Sound) (hk : t.children p = l ++ id :: r) :
    Replaced t (t.splice id).1 p l [id] (t.children id) r ∧
      (t.children id).map (t.splice id).1.branch = (t.children id).map t.branch := by
  obtain ⟨hsound, hkids, hnil, hother⟩ := h.splice hk
  have hid : t.parent id = some p := h.parent_eq_some_iff.2 (by simp [hk])
  have hchild : ∀ {x q : NodeId}, t.Outside [id] x → x ∈ t.children q → ¬t.Below id q := by
    intro x q hx hm hq
    exact hx.not_below id (by simp) (hq.child (h.parent_eq_some_iff.2 hm))
  refine ⟨⟨h, hsound, root_splice t id, by simp, by simp [hk], hkids, fun _ _ => by simp, ?_, ?_⟩, ?_⟩
  · intro x hx
    have hnot : x ∉ t.children id := fun hm => hchild hx hm (Below.refl id)
    refine h.parent_congr hsound fun q => ?_
    by_cases hqp : q = p
    · subst hqp
      simp [hkids, hk, hnot, hx.ne]
    · by_cases hqs : q = id
      · subst hqs
        simp [hnil, hnot]
      · rw [hother q hqp hqs]
  · exact fun x hx hxp => hother x hxp hx.ne
  · refine List.map_congr_left fun c hc => h.branch_congr hsound fun x hx => ⟨by simp, ?_⟩
    have hcid := h.parent_eq_some_iff.2 hc
    refine hother x ?_ ?_
    · rintro rfl
      exact h.acyclic.not_below_of_parent hid (Below.of_parent hcid hx)
    · rintro rfl
      exact h.acyclic.not_below_of_parent hcid hx

theorem Sound.replaced_modifyNode (h : t.Sound) (hk : t.children p = l ++ id :: r) (f : Node → Node) :
    Replaced t (t.modifyNode id f) p l [id] [id] r := by
  refine ⟨h, h.modifyNode id f, by simp, by simp, by simp [hk], ?_, ?_, ?_, ?_⟩
  · rw [h.children_modifyNode, hk]
    simp
  · exact fun x hx => node_modifyNode_of_ne f hx.ne
  · intro x _
    rw [parent, links_modifyNode, ← parent]
  · exact fun x _ _ => h.children_modifyNode id f x

/-- No old node is below a new one, as long as the old ones keep their parents. -/
theorem Coherent.not_below_of_size_le (h : t.Coherent)
    (hold : ∀ x, x.index < t.size → t'.parent x = t.parent x) {a x : NodeId} (ha : t.size ≤ a.index)
    (hb : t'.Below a x) : t.size ≤ x.index := by
  induction hb with
  | refl => exact ha
  | tail _ hq ih =>
      refine Nat.not_lt.1 fun hlt => ?_
      rw [hold _ hlt] at hq
      exact absurd (h.parent _ _ hq) (Nat.not_lt.2 ih)

theorem Sound.size_putCopy (h : t.Sound) (hk : t.children p = l ++ id :: r) (f : Node → Node) :
    (((t.copyTree id).modifyNode t.nextId f).insertBefore t.nextId id).size =
      t.size + (t.branch id).size := by
  have hid : id.index < t.size := (h.children_lt (p := p) (by simp [hk])).1
  rw [size_insertBefore, size_modifyNode, (h.copyTree hid).2.2.1]

/-- A deep copy with other data at its head, put in front of its original. -/
theorem Sound.replaced_copy (h : t.Sound) (hk : t.children p = l ++ id :: r) (f : Node → Node) :
    Replaced t (((t.copyTree id).modifyNode t.nextId f).insertBefore t.nextId id) p l [] [t.nextId]
        (id :: r) ∧
      (((t.copyTree id).modifyNode t.nextId f).insertBefore t.nextId id).branch t.nextId =
        .mk (f (t.node id)) ((t.children id).map t.branch) := by
  have hmem : id ∈ t.children p := by simp [hk]
  obtain ⟨hid, hp⟩ := h.children_lt hmem
  obtain ⟨hs₁, hroot, hsize, hbranch, -, hold⟩ := h.copyTree hid
  have hnew : t.nextId.index < (t.copyTree id).size := by
    rw [hsize, h.branch_eq id, Branch.size, nextId]
    simp
  -- The copy with its new data, still detached.
  have hs₂ := hs₁.modifyNode t.nextId f
  have hbranch₂ : ((t.copyTree id).modifyNode t.nextId f).branch t.nextId =
      .mk (f (t.node id)) ((t.children id).map t.branch) := by
    rw [h.branch_eq id, hs₁.branch_eq, Branch.mk.injEq] at hbranch
    rw [hs₁.branch_modifyNode hnew, hbranch.1, hbranch.2]
  have hold₂ : ∀ x, x.index < t.size → AgreeAt t ((t.copyTree id).modifyNode t.nextId f) x := by
    intro x hx
    refine (hold x hx).trans ⟨node_modifyNode_of_ne f (nextId_ne hx), ?_, hs₁.children_modifyNode _ f x⟩
    rw [parent, links_modifyNode, ← parent]
  have hlt : t.nextId.index < ((t.copyTree id).modifyNode t.nextId f).size := by simpa using hnew
  have hroot₂ : ((t.copyTree id).modifyNode t.nextId f).root = t.root := by simpa using hroot
  generalize (t.copyTree id).modifyNode t.nextId f = t₂ at hs₂ hbranch₂ hold₂ hlt hroot₂
  -- Putting it in place.
  have hne : t.nextId ≠ id := (nextId_ne hid).symm
  have hnot : ∀ x, t₂.Below t.nextId x → t.size ≤ x.index := fun x =>
    h.coherent.not_below_of_size_le (fun x hx => (hold₂ x hx).parent) (Nat.le_refl t.size)
  have hidp : t₂.parent id = some p := (hold₂ id hid).parent.trans (h.parent_eq_some_iff.2 hmem)
  have herase : ∀ q, q.index < t.size → (t₂.children q).erase t.nextId = t.children q := by
    intro q hq
    rw [(hold₂ q hq).children]
    exact List.erase_of_not_mem fun hm => absurd (h.children_lt hm).1 (Nat.lt_irrefl _)
  have hkids := hs₂.children_insertBefore (p := p) hlt hne ((herase p hp).trans hk)
  have hb : ¬t₂.Below t.nextId p := fun hb => absurd hp (Nat.not_lt.2 (hnot p hb))
  have hs₃ := hs₂.insertBefore hlt hne hidp hb
  constructor
  · exact {
      sound := h
      sound' := hs₃
      root := by simpa using hroot₂
      size_le := by
        have hle : t.size < t₂.size := hlt
        simpa using Nat.le_of_lt hle
      children := by simp [hk]
      children' := by
        rw [hkids, if_pos rfl]
        simp
      node := fun x hx => by rw [node_insertBefore, (hold₂ x hx.lt).node]
      parent := fun x hx => by
        rw [hs₂.spells.parent_insertBefore hlt hne hidp, if_neg (nextId_ne hx.lt),
          (hold₂ x hx.lt).parent]
      other := fun x hx hxp => by rw [hkids, if_neg hxp, herase x hx.lt] }
  · rw [hs₂.branch_moved hs₃ hb (node_insertBefore t₂ _ _) fun q hq => (hkids q).trans (if_neg hq),
      hbranch₂]

end Shorthand.Tree
