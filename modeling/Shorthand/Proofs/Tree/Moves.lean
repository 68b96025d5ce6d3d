import Shorthand.Proofs.Tree.Below

/-!
# Moves in sound trees

The operations on links keep a tree sound, and act on its child sequences as the operations on lists
of the same name. A node may be moved anywhere but below itself.
-/

namespace Shorthand.Tree

variable {t t' : Tree}

/-- A tree is sound if its links spell out sequences along which some rank grows. -/
theorem Spells.sound {kids : NodeId → List NodeId} (hs : t.Spells kids)
    (hroot : t.root.index < t.size) {rank : NodeId → Nat}
    (hr : ∀ p, ∀ c ∈ kids p, rank p < rank c) : t.Sound :=
  ⟨hs.coherent hroot, rank, fun c p hc => hr p c ((hs.parent_iff c p).1 hc)⟩

theorem Sound.exists_rank (h : t.Sound) :
    ∃ rank : NodeId → Nat, ∀ p, ∀ c ∈ t.children p, rank p < rank c := by
  obtain ⟨rank, hr⟩ := h.acyclic
  exact ⟨rank, fun p c hc => hr c p (h.parent_eq_some_iff.2 hc)⟩

theorem Sound.nodup_children (h : t.Sound) (p : NodeId) : (t.children p).Nodup :=
  h.spells.nodup p

theorem Sound.children_eq_nil (h : t.Sound) {p : NodeId} (hp : t.size ≤ p.index) :
    t.children p = [] :=
  h.spells.kids_eq_nil hp

theorem parent_of_size_le {id : NodeId} (hid : t.size ≤ id.index) : t.parent id = none := by
  rw [parent, links_of_size_le hid]

/-! ### Data and allocation -/

/-- The tree of a lone root is sound. -/
theorem Sound.empty : Tree.empty.Sound := by
  have hlinks : ∀ id, Tree.empty.links id = {} := by
    rintro ⟨_ | i⟩ <;> rfl
  have hspells : Tree.empty.Spells fun _ => [] := {
    parent_iff := by simp [parent, hlinks]
    nodup := fun _ => List.nodup_nil
    first := by simp [firstChild, hlinks]
    last := by simp [lastChild, hlinks]
    around := by simp
    detached := by simp [previous, next, hlinks]
    inside := by simp }
  exact ⟨hspells.coherent (by decide), fun _ => 0, by simp [parent, hlinks]⟩

theorem Sound.children_modifyNode (h : t.Sound) (id : NodeId) (f : Node → Node) (q : NodeId) :
    (t.modifyNode id f).children q = t.children q :=
  (h.spells.modifyNode id f).children_eq q

theorem Sound.modifyNode (h : t.Sound) (id : NodeId) (f : Node → Node) : (t.modifyNode id f).Sound := by
  obtain ⟨rank, hr⟩ := h.exists_rank
  exact (h.spells.modifyNode id f).sound (by simpa using h.coherent.root) hr

theorem Sound.children_push (h : t.Sound) (n : Node) (q : NodeId) :
    (t.push n).children q = t.children q :=
  (h.spells.push n).children_eq q

theorem Sound.push (h : t.Sound) (n : Node) : (t.push n).Sound := by
  obtain ⟨rank, hr⟩ := h.exists_rank
  exact (h.spells.push n).sound (by simpa using Nat.lt_succ_of_lt h.coherent.root) hr

theorem Sound.branch_modifyNode (h : t.Sound) {id : NodeId} (hid : id.index < t.size) (f : Node → Node) :
    (t.modifyNode id f).branch id = .mk (f (t.node id)) ((t.children id).map t.branch) := by
  rw [(h.modifyNode id f).branch_eq, h.children_modifyNode, node_modifyNode id f hid, if_pos rfl]
  refine congrArg _ (List.map_congr_left fun c hc => ?_)
  refine h.branch_congr (h.modifyNode id f) fun x hx => ⟨?_, h.children_modifyNode id f x⟩
  refine node_modifyNode_of_ne f ?_
  rintro rfl
  exact h.acyclic.not_below_of_parent (h.parent_eq_some_iff.2 hc) hx

/-! ### Taking out -/

theorem Sound.children_remove (h : t.Sound) (id q : NodeId) :
    (t.remove id).children q = (t.children q).erase id :=
  (h.spells.remove id).children_eq q

theorem Coherent.remove (h : t.Coherent) (id : NodeId) : (t.remove id).Coherent :=
  (h.spells.remove id).coherent (by simpa using h.root)

theorem Sound.remove (h : t.Sound) (id : NodeId) : (t.remove id).Sound := by
  obtain ⟨rank, hr⟩ := h.exists_rank
  exact (h.spells.remove id).sound (by simpa using h.coherent.root)
    fun p c hc => hr p c (List.mem_of_mem_erase hc)

theorem Sound.parent_remove (h : t.Sound) (id x : NodeId) :
    (t.remove id).parent x = if x = id then none else t.parent x :=
  h.spells.parent_remove id x

/-! ### Putting in -/

theorem Coherent.append (h : t.Coherent) {p id : NodeId} (hid : id.index < t.size)
    (hp : p.index < t.size) : (t.append p id).Coherent :=
  (h.spells.append hid hp).coherent (by simpa using h.root)

theorem Sound.append (h : t.Sound) {p id : NodeId} (hid : id.index < t.size) (hp : p.index < t.size)
    (hb : ¬t.Below id p) : (t.append p id).Sound :=
  ⟨h.coherent.append hid hp, h.acyclic.of_move (h.spells.parent_append hid hp) hb⟩

theorem Sound.children_append (h : t.Sound) {p id : NodeId} (hid : id.index < t.size)
    (hp : p.index < t.size) (q : NodeId) :
    (t.append p id).children q =
      if q = p then (t.children p).erase id ++ [id] else (t.children q).erase id := by
  rw [(h.spells.append hid hp).children_eq q]
  by_cases hq : q = p
  · subst hq
    simp
  · rw [Function.update_of_ne hq, if_neg hq]

/-- In front of a detached node, or of itself, a node stays; else it moves to the parent. -/
theorem Coherent.insertBefore (h : t.Coherent) {id s : NodeId} (hid : id.index < t.size) :
    (t.insertBefore id s).Coherent := by
  by_cases hne : id = s
  · rw [hne, insertBefore_self]
    exact h
  · cases hs : t.parent s with
    | none =>
        rw [insertBefore_of_parent_eq_none hs]
        exact h
    | some p =>
        have hmem : s ∈ (t.children p).erase id :=
          (h.spells.nodup p).mem_erase_iff.2 ⟨Ne.symm hne, (h.spells.parent_iff s p).1 hs⟩
        obtain ⟨l, r, hk⟩ := List.append_of_mem hmem
        exact (h.spells.insertBefore hid hne hk).coherent (by simpa using h.root)

/-- No other node gets another parent. -/
theorem Coherent.parent_insertBefore_of_ne (h : t.Coherent) {id s x : NodeId}
    (hid : id.index < t.size) (hx : x ≠ id) : (t.insertBefore id s).parent x = t.parent x := by
  by_cases hne : id = s
  · rw [hne, insertBefore_self]
  · cases hs : t.parent s with
    | none => rw [insertBefore_of_parent_eq_none hs]
    | some p => rw [h.spells.parent_insertBefore hid hne hs, if_neg hx]

theorem Sound.insertBefore (h : t.Sound) {p id s : NodeId} (hid : id.index < t.size) (hne : id ≠ s)
    (hs : t.parent s = some p) (hb : ¬t.Below id p) : (t.insertBefore id s).Sound :=
  ⟨h.coherent.insertBefore hid, h.acyclic.of_move (h.spells.parent_insertBefore hid hne hs) hb⟩

theorem Sound.children_insertBefore (h : t.Sound) {p id s : NodeId} {l r : List NodeId}
    (hid : id.index < t.size) (hne : id ≠ s) (hk : (t.children p).erase id = l ++ s :: r)
    (q : NodeId) :
    (t.insertBefore id s).children q =
      if q = p then l ++ id :: s :: r else (t.children q).erase id := by
  rw [(h.spells.insertBefore hid hne hk).children_eq q]
  by_cases hq : q = p
  · subst hq
    simp
  · rw [Function.update_of_ne hq, if_neg hq]

/-- A node that is moved, but not below itself, takes along all that is below it. -/
theorem Sound.branch_moved (h : t.Sound) (h' : t'.Sound) {p id : NodeId} (hb : ¬t.Below id p)
    (hnode : ∀ x, t'.node x = t.node x)
    (hkids : ∀ q, q ≠ p → t'.children q = (t.children q).erase id) : t'.branch id = t.branch id := by
  refine h.branch_congr h' fun x hx => ⟨hnode x, ?_⟩
  have hxp : x ≠ p := by
    rintro rfl
    exact hb hx
  rw [hkids x hxp]
  exact List.erase_of_not_mem fun hm => h.acyclic.not_below_of_parent (h.parent_eq_some_iff.2 hm) hx

/-! ### Dissolving a node into its children -/

/-- Moving the children of `s` in front of it, one by one. -/
theorem Spells.foldl_insertBefore {p s : NodeId} {l r : List NodeId} (hne : s ≠ p) :
    ∀ (rest moved : List NodeId) {t : Tree} {kids : NodeId → List NodeId}, t.Spells kids →
      kids p = l ++ moved ++ s :: r → kids s = rest →
      ∃ kids', (rest.foldl (fun t c => t.insertBefore c s) t).Spells kids' ∧
        kids' p = l ++ moved ++ rest ++ s :: r ∧ kids' s = [] ∧
        ∀ q, q ≠ p → q ≠ s → kids' q = kids q
  | [], moved, t, kids, h, hp, hs => ⟨kids, h, by simpa using hp, hs, fun _ _ _ => rfl⟩
  | c :: rest, moved, t, kids, h, hp, hs => by
      have hc : c ∈ kids s := by simp [hs]
      have hcs : c ≠ s := by
        rintro rfl
        exact hne (h.eq_of_mem hc (by simp [hp]))
      have hother : ∀ q, q ≠ s → (kids q).erase c = kids q := fun q hq =>
        List.erase_of_not_mem fun hm => hq (h.eq_of_mem hm hc)
      have hmove := h.insertBefore (h.inside s c hc).1 hcs
        (by rw [hother p (Ne.symm hne), hp])
      obtain ⟨kids', hs', hp', hnil, hrest⟩ := Spells.foldl_insertBefore (l := l) (r := r) hne rest
        (moved ++ [c]) hmove (by simp) (by simp [Function.update_of_ne hne, hs])
      refine ⟨kids', hs', by simpa using hp', hnil, fun q hqp hqs => ?_⟩
      rw [hrest q hqp hqs, Function.update_of_ne hqp, hother q hqs]

/-- A node that is dissolved gives its place to its children, and ends up detached and childless. -/
theorem Sound.splice (h : t.Sound) {p s : NodeId} {l r : List NodeId}
    (hk : t.children p = l ++ s :: r) :
    (t.splice s).1.Sound ∧ (t.splice s).1.children p = l ++ t.children s ++ r ∧
      (t.splice s).1.children s = [] ∧
      ∀ q, q ≠ p → q ≠ s → (t.splice s).1.children q = t.children q := by
  have hsp : t.parent s = some p := h.parent_eq_some_iff.2 (by simp [hk])
  have hne : s ≠ p := Ne.symm (h.acyclic.ne_of_parent hsp)
  obtain ⟨kids, hs, hp, hnil, hother⟩ :=
    Spells.foldl_insertBefore (l := l) (r := r) hne (t.children s) [] h.spells (by simpa using hk) rfl
  have heq : (t.splice s).1 = ((t.children s).foldl (fun t c => t.insertBefore c s) t).remove s := by
    simp [Tree.splice, hsp]
  have hspells : (t.splice s).1.Spells fun q => (kids q).erase s := heq ▸ hs.remove s
  have hcut : kids p = (l ++ t.children s) ++ s :: r := by simpa using hp
  have hsl : s ∉ l ++ t.children s := (hs.not_mem_cut hcut).1
  have hp' : (kids p).erase s = l ++ t.children s ++ r := by
    rw [hcut, List.erase_append_right _ hsl, List.erase_cons_head]
  have hother' : ∀ q, q ≠ p → q ≠ s → (kids q).erase s = t.children q := by
    intro q hqp hqs
    rw [hother q hqp hqs]
    exact List.erase_of_not_mem fun hm => hqp (h.spells.eq_of_mem hm (by simp [hk]))
  refine ⟨?_, ?_, ?_, ?_⟩
  · -- A rank still grows downwards: the children were above `s` in rank, as `s` was above `p`.
    obtain ⟨rank, hr⟩ := h.exists_rank
    have hgrow : ∀ q, ∀ c ∈ (kids q).erase s, rank q < rank c := by
      intro q c hc
      by_cases hqp : q = p
      · subst hqp
        rw [hp'] at hc
        rcases List.mem_append.1 hc with hc | hc
        · rcases List.mem_append.1 hc with hc | hc
          · exact hr q c (by simp [hk, hc])
          · exact Nat.lt_trans (hr q s (by simp [hk])) (hr s c hc)
        · exact hr q c (by simp [hk, hc])
      · by_cases hqs : q = s
        · subst hqs
          simp [hnil] at hc
        · rw [hother' q hqp hqs] at hc
          exact hr q c hc
    exact hspells.sound (by simpa using h.coherent.root) hgrow
  · rw [hspells.children_eq, hp']
  · rw [hspells.children_eq, hnil]
    rfl
  · intro q hqp hqs
    rw [hspells.children_eq, hother' q hqp hqs]

/-! ### Handing children over -/

/-- Appending the children of `s` to those of `p`, one by one. -/
theorem Spells.foldl_append {p s : NodeId} (hne : s ≠ p) :
    ∀ (rest : List NodeId) {t : Tree} {kids : NodeId → List NodeId}, t.Spells kids →
      p.index < t.size → kids s = rest →
      ∃ kids', (rest.foldl (fun t c => t.append p c) t).Spells kids' ∧
        kids' p = kids p ++ rest ∧ kids' s = [] ∧ ∀ q, q ≠ p → q ≠ s → kids' q = kids q
  | [], t, kids, h, _, hs => ⟨kids, h, by simp, hs, fun _ _ _ => rfl⟩
  | c :: rest, t, kids, h, hp, hs => by
      have hc : c ∈ kids s := by simp [hs]
      have hother : ∀ q, q ≠ s → (kids q).erase c = kids q := fun q hq =>
        List.erase_of_not_mem fun hm => hq (h.eq_of_mem hm hc)
      have hmove := h.append (h.inside s c hc).1 hp
      obtain ⟨kids', hs', hp', hnil, hrest⟩ := Spells.foldl_append hne rest hmove (by simpa using hp)
        (by simp [Function.update_of_ne hne, hs])
      refine ⟨kids', hs', ?_, hnil, fun q hqp hqs => ?_⟩
      · rw [hp', Function.update_self, hother p (Ne.symm hne)]
        simp
      · rw [hrest q hqp hqs, Function.update_of_ne hqp, hother q hqs]

/-- A node that is not above `p` may hand its children over to `p`. -/
theorem Sound.handOver (h : t.Sound) {p s : NodeId} (hp : p.index < t.size) (hb : ¬t.Below s p) :
    ((t.children s).foldl (fun t c => t.append p c) t).Sound ∧
      ((t.children s).foldl (fun t c => t.append p c) t).children p = t.children p ++ t.children s ∧
      ((t.children s).foldl (fun t c => t.append p c) t).children s = [] ∧
      ∀ q, q ≠ p → q ≠ s →
        ((t.children s).foldl (fun t c => t.append p c) t).children q = t.children q := by
  classical
  have hne : s ≠ p := by
    rintro rfl
    exact hb (Below.refl s)
  obtain ⟨kids, hs, hkp, hks, hother⟩ := Spells.foldl_append hne (t.children s) h.spells hp rfl
  refine ⟨?_, by rw [hs.children_eq, hkp], by rw [hs.children_eq, hks],
    fun q hqp hqs => by rw [hs.children_eq, hother q hqp hqs]⟩
  obtain ⟨rank, hr⟩ := h.exists_rank
  -- What is handed over is lifted above the rank of the new parent.
  let lifted : NodeId → Nat := fun x => if t.Below s x then rank p + 1 + rank x else rank x
  have hold : ∀ q, ∀ c ∈ t.children q, lifted q < lifted c := by
    intro q c hc
    have hlt := hr q c hc
    have hcq := h.parent_eq_some_iff.2 hc
    by_cases hq : t.Below s q
    · simp only [lifted, hq, hq.child hcq, if_true]
      omega
    · simp only [lifted, hq, if_false]
      split <;> omega
  have hgrow : ∀ q, ∀ c ∈ kids q, lifted q < lifted c := by
    intro q c hc
    by_cases hqp : q = p
    · subst hqp
      rw [hkp, List.mem_append] at hc
      rcases hc with hc | hc
      · exact hold q c hc
      · have hbelow : t.Below s c := (Below.refl s).child (h.parent_eq_some_iff.2 hc)
        simp only [lifted, hb, hbelow, if_true, if_false]
        omega
    · by_cases hqs : q = s
      · subst hqs
        simp [hks] at hc
      · rw [hother q hqp hqs] at hc
        exact hold q c hc
  refine hs.sound ?_ hgrow
  rw [root_foldl_append, size_foldl_append]
  exact h.coherent.root

end Shorthand.Tree
