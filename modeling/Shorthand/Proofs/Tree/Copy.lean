import Shorthand.Proofs.Tree.Preorder

/-!
# Deep copies

A deep copy is an isolated tree of new nodes with the shape and the data of what was copied
(`Sound.copyTree`).

The loop keeps a list of pairs of a node and its copy, the copy still without children. The
invariant `Copying` says that of a state of the loop; one round (`Sound.copyChildren`) copies the
children of one node and notes them in turn. The rounds needed are the nodes below the noted ones.
-/

namespace Shorthand.Tree

variable {t t' : Tree}

/-- The two trees have the same at a place, what is below it apart. -/
structure AgreeAt (t t' : Tree) (x : NodeId) : Prop where
  node : t'.node x = t.node x
  parent : t'.parent x = t.parent x
  children : t'.children x = t.children x

theorem AgreeAt.trans {t'' : Tree} {x : NodeId} (h : AgreeAt t t' x) (h' : AgreeAt t' t'' x) :
    AgreeAt t t'' x :=
  ⟨h'.node.trans h.node, h'.parent.trans h.parent, h'.children.trans h.children⟩

theorem nextId_ne {x : NodeId} (h : x.index < t.size) : x ≠ t.nextId := by
  rintro rfl
  exact absurd h (Nat.lt_irrefl _)

/-! ### A new last child -/

/-- A new node without children has nothing below it. -/
theorem Coherent.not_below_nextId (h : t.Coherent) (n : Node) {x : NodeId} (hx : x.index < t.size) :
    ¬(t.push n).Below t.nextId x := by
  intro hb
  rcases hb.cases_child with rfl | ⟨c, hc, -⟩
  · exact absurd hx (Nat.lt_irrefl _)
  · rw [Tree.parent, links_push, ← Tree.parent] at hc
    exact absurd (h.parent c _ hc) (Nat.lt_irrefl _)

/-- A new node with the data `n` has become the last child of `p`. -/
structure NewLast (t t' : Tree) (p : NodeId) (n : Node) : Prop where
  sound : t'.Sound
  root : t'.root = t.root
  size : t'.size = t.size + 1
  newNode : t'.node t.nextId = n
  newChildren : t'.children t.nextId = []
  children : t'.children p = t.children p ++ [t.nextId]
  node : ∀ x, x.index < t.size → t'.node x = t.node x
  parent : ∀ x, x.index < t.size → t'.parent x = t.parent x
  other : ∀ x, x.index < t.size → x ≠ p → t'.children x = t.children x

theorem Sound.newLast (h : t.Sound) {p : NodeId} (hp : p.index < t.size) (n : Node) :
    NewLast t ((t.push n).append p t.nextId) p n := by
  have hnew : t.nextId.index < (t.push n).size := by simp [nextId]
  have hp' : p.index < (t.push n).size := by simpa using Nat.lt_succ_of_lt hp
  have hpne : t.nextId ≠ p := (nextId_ne hp).symm
  have hsound := h.push n
  have hfresh : ∀ q, (t.children q).erase t.nextId = t.children q := fun q =>
    List.erase_of_not_mem fun hm => absurd (h.children_lt hm).1 (Nat.lt_irrefl _)
  exact {
    sound := hsound.append hnew hp' (h.coherent.not_below_nextId n hp)
    root := by simp
    size := by simp
    newNode := by simp [node_push]
    newChildren := by
      rw [hsound.children_append hnew hp', if_neg hpne, h.children_push, hfresh]
      exact h.children_eq_nil (Nat.le_refl t.size)
    children := by rw [hsound.children_append hnew hp', if_pos rfl, h.children_push, hfresh]
    node := fun x hx => by rw [node_append, node_push_of_lt n hx]
    parent := fun x hx => by
      rw [hsound.spells.parent_append hnew hp', if_neg (nextId_ne hx), parent, links_push, ← parent]
    other := fun x _ hxp => by
      rw [hsound.children_append hnew hp', if_neg hxp, h.children_push, hfresh] }

/-! ### One round -/

/-- Copying some children: their copies are noted in front of what is pending, last first, and are the
new children of the target. -/
structure CopiesBelow (t t' : Tree) (target : NodeId) (pairs : List (NodeId × NodeId)) : Prop where
  sound : t'.Sound
  root : t'.root = t.root
  size : t'.size = t.size + pairs.length
  children : t'.children target = t.children target ++ pairs.map Prod.snd
  nodup : (pairs.map Prod.snd).Nodup
  copy : ∀ e ∈ pairs, t.size ≤ e.2.index ∧ e.2.index < t'.size ∧ t'.children e.2 = [] ∧
    t'.node e.2 = t.node e.1
  node : ∀ x, x.index < t.size → t'.node x = t.node x
  parent : ∀ x, x.index < t.size → t'.parent x = t.parent x
  other : ∀ x, x.index < t.size → x ≠ target → t'.children x = t.children x

theorem CopiesBelow.nil (h : t.Sound) (target : NodeId) : CopiesBelow t t target [] where
  sound := h
  root := rfl
  size := rfl
  children := by simp
  nodup := List.nodup_nil
  copy := by simp
  node := fun _ _ => rfl
  parent := fun _ _ => rfl
  other := fun _ _ _ => rfl

/-- The first child is copied, and then the others. -/
theorem CopiesBelow.cons {t₁ : Tree} {target c : NodeId} {pairs : List (NodeId × NodeId)}
    (hfirst : NewLast t t₁ target (t.node c)) (hrest : CopiesBelow t₁ t' target pairs)
    (ht : target.index < t.size) (hpairs : ∀ e ∈ pairs, e.1.index < t.size) :
    CopiesBelow t t' target ((c, t.nextId) :: pairs) := by
  have hsize := hfirst.size
  have hold : ∀ x : NodeId, x.index < t.size → x.index < t₁.size := fun x hx => by omega
  have hnew : t.nextId.index < t₁.size := by
    rw [hsize]
    exact Nat.lt_succ_self _
  have hne : t.nextId ≠ target := (nextId_ne ht).symm
  constructor
  case sound => exact hrest.sound
  case root => exact hrest.root.trans hfirst.root
  case size =>
    rw [hrest.size, hsize, List.length_cons]
    omega
  case children =>
    rw [hrest.children, hfirst.children, List.map_cons, List.append_assoc]
    rfl
  case nodup =>
    -- The later copies have higher places.
    rw [List.map_cons, List.nodup_cons]
    refine ⟨fun hm => ?_, hrest.nodup⟩
    obtain ⟨e, he, heq⟩ := List.mem_map.1 hm
    have hle := (hrest.copy e he).1
    rw [heq] at hle
    exact absurd hnew (Nat.not_lt.2 hle)
  case copy =>
    intro e he
    rcases List.mem_cons.1 he with rfl | he
    · refine ⟨Nat.le_refl _, ?_, ?_, ?_⟩
      · rw [hrest.size]
        exact Nat.lt_of_lt_of_le hnew (Nat.le_add_right _ _)
      · rw [hrest.other _ hnew hne, hfirst.newChildren]
      · rw [hrest.node _ hnew, hfirst.newNode]
    · obtain ⟨hle, hlt, hkids, hdata⟩ := hrest.copy e he
      refine ⟨by omega, hlt, hkids, ?_⟩
      rw [hdata, hfirst.node e.1 (hpairs e he)]
  case node =>
    intro x hx
    rw [hrest.node x (hold x hx), hfirst.node x hx]
  case parent =>
    intro x hx
    rw [hrest.parent x (hold x hx), hfirst.parent x hx]
  case other =>
    intro x hx hxt
    rw [hrest.other x (hold x hx) hxt, hfirst.other x hx hxt]

/-- Going through some nodes of the tree copies them below the target. -/
theorem Sound.copyChildren {target : NodeId} : ∀ (cs : List NodeId) {t : Tree}
    (pending : List (NodeId × NodeId)), t.Sound → target.index < t.size →
    (∀ c ∈ cs, c.index < t.size) →
    ∃ pairs, pairs.map Prod.fst = cs ∧
      (cs.foldl (copyChild target) (t, pending)).2 = pairs.reverse ++ pending ∧
      CopiesBelow t (cs.foldl (copyChild target) (t, pending)).1 target pairs
  | [], t, pending, h, _, _ => ⟨[], rfl, rfl, .nil h target⟩
  | c :: cs, t, pending, h, ht, hcs => by
      have hfirst := h.newLast ht (t.node c)
      have hold : ∀ x : NodeId, x.index < t.size →
          x.index < ((t.push (t.node c)).append target t.nextId).size := fun x hx => by
        rw [hfirst.size]
        exact Nat.lt_succ_of_lt hx
      obtain ⟨pairs, hfst, hpend, hrest⟩ := Sound.copyChildren cs ((c, t.nextId) :: pending)
        hfirst.sound (hold target ht) fun x hx => hold x (hcs x (List.mem_cons_of_mem _ hx))
      have hpairs : ∀ e ∈ pairs, e.1.index < t.size := fun e he =>
        hcs e.1 (List.mem_cons_of_mem _ (hfst ▸ List.mem_map_of_mem he))
      exact ⟨(c, t.nextId) :: pairs, by simp [hfst], by simpa [copyChild, copyNode] using hpend,
        .cons hfirst hrest ht hpairs⟩

/-! ### The whole loop -/

/-- A state of the loop that copies from `t₀`: the old nodes are as they were, and each pending copy
has the data of its original and no children yet. -/
structure Copying (t₀ t : Tree) (pending : List (NodeId × NodeId)) : Prop where
  sound : t.Sound
  size_le : t₀.size ≤ t.size
  old : ∀ x, x.index < t₀.size → AgreeAt t₀ t x
  nodup : (pending.map Prod.snd).Nodup
  pending : ∀ e ∈ pending, e.1.index < t₀.size ∧ t₀.size ≤ e.2.index ∧ e.2.index < t.size ∧
    t.children e.2 = [] ∧ t.node e.2 = t₀.node e.1

/-- The nodes that are still to be copied, the pending ones included. -/
def pendingSize (t₀ : Tree) (pending : List (NodeId × NodeId)) : Nat :=
  Forest.size (pending.map fun e => t₀.branch e.1)

/-- Whatever is pending is still to be copied. -/
theorem Sound.pendingSize_pos {t₀ : Tree} (h₀ : t₀.Sound) (pair : NodeId × NodeId)
    (pending : List (NodeId × NodeId)) : 0 < pendingSize t₀ (pair :: pending) := by
  rw [pendingSize, List.map_cons, Forest.size, h₀.branch_eq, Branch.size]
  omega

/-- Copying the children of the first pending node keeps the invariant. -/
theorem Copying.next {t₀ t : Tree} {source target : NodeId} {pending pairs : List (NodeId × NodeId)}
    (h : Copying t₀ t ((source, target) :: pending)) (hcopies : CopiesBelow t t' target pairs)
    (hpairs : ∀ e ∈ pairs, e.1.index < t₀.size) : Copying t₀ t' (pairs.reverse ++ pending) := by
  obtain ⟨-, hnew, -, -, -⟩ := h.pending (source, target) (by simp)
  have hle := h.size_le
  have hsize := hcopies.size
  obtain ⟨hfresh, hnodup⟩ : target ∉ pending.map Prod.snd ∧ (pending.map Prod.snd).Nodup := by
    simpa using h.nodup
  constructor
  case sound => exact hcopies.sound
  case size_le => omega
  case old =>
    intro x hx
    have hne : x ≠ target := by
      rintro rfl
      exact absurd hx (Nat.not_lt.2 hnew)
    have hxt : x.index < t.size := Nat.lt_of_lt_of_le hx hle
    exact (h.old x hx).trans ⟨hcopies.node x hxt, hcopies.parent x hxt, hcopies.other x hxt hne⟩
  case nodup =>
    -- The copies of this round have higher places than those that were pending before.
    rw [List.map_append, List.map_reverse, List.nodup_append']
    refine ⟨List.nodup_reverse.2 hcopies.nodup, hnodup, fun x hx hx' => ?_⟩
    obtain ⟨e, he, rfl⟩ := List.mem_map.1 (List.mem_reverse.1 hx)
    obtain ⟨e', he', heq⟩ := List.mem_map.1 hx'
    have hhigh := (hcopies.copy e he).1
    have hlow := (h.pending e' (List.mem_cons_of_mem _ he')).2.2.1
    rw [heq] at hlow
    omega
  case pending =>
    intro e he
    rcases List.mem_append.1 he with he | he
    · have he := List.mem_reverse.1 he
      obtain ⟨hhigh, hlt, hkids, hdata⟩ := hcopies.copy e he
      exact ⟨hpairs e he, by omega, hlt, hkids, hdata.trans (h.old e.1 (hpairs e he)).node⟩
    · obtain ⟨hin, hhigh, hlt, hkids, hdata⟩ := h.pending e (List.mem_cons_of_mem _ he)
      have hne : e.2 ≠ target := fun heq => hfresh (heq ▸ List.mem_map_of_mem he)
      refine ⟨hin, hhigh, by omega, ?_, ?_⟩
      · rw [hcopies.other e.2 hlt hne, hkids]
      · rw [hcopies.node e.2 hlt, hdata]

/-- Copying the children of a node leaves one node less to copy. -/
theorem Sound.pendingSize_next {t₀ : Tree} (h₀ : t₀.Sound) {source : NodeId} (target : NodeId)
    {pairs : List (NodeId × NodeId)} (hfst : pairs.map Prod.fst = t₀.children source)
    (pending : List (NodeId × NodeId)) :
    pendingSize t₀ (pairs.reverse ++ pending) + 1 = pendingSize t₀ ((source, target) :: pending) := by
  have hbelow : pairs.map (fun e => t₀.branch e.1) = t₀.forestBelow source := by
    rw [h₀.forestBelow_eq, ← hfst, List.map_map]
    rfl
  have hbranch : (t₀.branch source).size = Forest.size (t₀.forestBelow source) + 1 := by
    rw [h₀.branch_eq source, Branch.size, h₀.forestBelow_eq]
  simp only [pendingSize, List.map_append, List.map_reverse, List.map_cons, Forest.size_append,
    Forest.size_reverse, Forest.size, hbelow, hbranch]
  omega

/-- One round keeps the invariant, and leaves one node less to copy. -/
theorem Copying.round {t₀ t : Tree} {source target : NodeId} {pending : List (NodeId × NodeId)}
    (h₀ : t₀.Sound) (h : Copying t₀ t ((source, target) :: pending)) :
    ∃ pairs, (((t.children source).foldl (copyChild target) (t, pending)).2 = pairs.reverse ++ pending) ∧
      pairs.map Prod.fst = t₀.children source ∧
      CopiesBelow t ((t.children source).foldl (copyChild target) (t, pending)).1 target pairs ∧
      Copying t₀ ((t.children source).foldl (copyChild target) (t, pending)).1
        (pairs.reverse ++ pending) ∧
      pendingSize t₀ (pairs.reverse ++ pending) + 1 =
        pendingSize t₀ ((source, target) :: pending) := by
  obtain ⟨hsource, -, htarget, -, -⟩ := h.pending (source, target) (by simp)
  have hkids : t.children source = t₀.children source := (h.old source hsource).children
  have hcs : ∀ c ∈ t.children source, c.index < t₀.size := fun c hc =>
    (h₀.children_lt (hkids ▸ hc)).1
  obtain ⟨pairs, hfst, hpend, hcopies⟩ := h.sound.copyChildren (t.children source) pending htarget
    fun c hc => Nat.lt_of_lt_of_le (hcs c hc) h.size_le
  have hpairs : ∀ e ∈ pairs, e.1.index < t₀.size := fun e he =>
    hcs e.1 (hfst ▸ List.mem_map_of_mem he)
  exact ⟨pairs, hpend, hfst.trans hkids, hcopies, h.next hcopies hpairs,
    h₀.pendingSize_next target (hfst.trans hkids) pending⟩

/-- What the loop comes to: every pending copy has the branch of its original, and nothing else has
changed. -/
structure Copied (t₀ t t' : Tree) (pending : List (NodeId × NodeId)) : Prop where
  sound : t'.Sound
  root : t'.root = t.root
  size : t'.size + pending.length = t.size + pendingSize t₀ pending
  branch : ∀ e ∈ pending, t'.branch e.2 = t₀.branch e.1
  node : ∀ x, x.index < t.size → t'.node x = t.node x
  parent : ∀ x, x.index < t.size → t'.parent x = t.parent x
  other : ∀ x, x.index < t.size → x ∉ pending.map Prod.snd → t'.children x = t.children x

theorem Copied.nil {t₀ t : Tree} (h : t.Sound) : Copied t₀ t t [] where
  sound := h
  root := rfl
  size := by simp [pendingSize, Forest.size]
  branch := by simp
  node := fun _ _ => rfl
  parent := fun _ _ => rfl
  other := fun _ _ _ => rfl

/-- The children of the first pending node are copied, and then all that is pending behind them. -/
theorem Copied.cons {t₀ t t₁ : Tree} {source target : NodeId}
    {pending pairs : List (NodeId × NodeId)} (h₀ : t₀.Sound)
    (h : Copying t₀ t ((source, target) :: pending)) (hcopies : CopiesBelow t t₁ target pairs)
    (hfst : pairs.map Prod.fst = t₀.children source)
    (hrest : Copied t₀ t₁ t' (pairs.reverse ++ pending)) :
    Copied t₀ t t' ((source, target) :: pending) := by
  obtain ⟨-, -, htarget, hnil, hdata⟩ := h.pending (source, target) (by simp)
  obtain ⟨hfreshTarget, -⟩ : target ∉ pending.map Prod.snd ∧ (pending.map Prod.snd).Nodup := by
    simpa using h.nodup
  have hlt : ∀ x : NodeId, x.index < t.size → x.index < t₁.size := fun x hx => by
    rw [hcopies.size]
    omega
  -- The copies of this round are at new places.
  have hfresh : ∀ x : NodeId, x.index < t.size → x ∉ pending.map Prod.snd →
      x ∉ (pairs.reverse ++ pending).map Prod.snd := by
    intro x hx hxp hm
    rw [List.map_append, List.mem_append] at hm
    rcases hm with hm | hm
    · obtain ⟨e, he, rfl⟩ := List.mem_map.1 hm
      exact absurd hx (Nat.not_lt.2 (hcopies.copy e (List.mem_reverse.1 he)).1)
    · exact hxp hm
  constructor
  case sound => exact hrest.sound
  case root => exact hrest.root.trans hcopies.root
  case size =>
    have hsizeRest := hrest.size
    have hsizeCopies := hcopies.size
    have hmeasure := h₀.pendingSize_next target hfst pending
    simp only [List.length_append, List.length_reverse, List.length_cons] at hsizeRest ⊢
    omega
  case branch =>
    intro e he
    rcases List.mem_cons.1 he with rfl | he
    · have hkids : t'.children target = pairs.map Prod.snd := by
        rw [hrest.other target (hlt target htarget) (hfresh target htarget hfreshTarget),
          hcopies.children, hnil, List.nil_append]
      rw [hrest.sound.branch_eq, h₀.branch_eq, hkids, ← hfst, List.map_map, List.map_map,
        hrest.node target (hlt target htarget), hcopies.node target htarget, hdata]
      refine congrArg _ (List.map_congr_left fun e he => ?_)
      exact hrest.branch e (List.mem_append_left _ (List.mem_reverse.2 he))
    · exact hrest.branch e (List.mem_append_right _ he)
  case node =>
    intro x hx
    rw [hrest.node x (hlt x hx), hcopies.node x hx]
  case parent =>
    intro x hx
    rw [hrest.parent x (hlt x hx), hcopies.parent x hx]
  case other =>
    intro x hx hxp
    obtain ⟨hxt, hxp⟩ : x ≠ target ∧ x ∉ pending.map Prod.snd := by
      simpa [not_or] using hxp
    rw [hrest.other x (hlt x hx) (hfresh x hx hxp), hcopies.other x hx hxt]

/-- **With as many rounds as there are nodes to copy, the loop comes to its end.** -/
theorem Copying.copyBelow {t₀ : Tree} (h₀ : t₀.Sound) : ∀ (steps : Nat)
    (pending : List (NodeId × NodeId)) {t : Tree}, Copying t₀ t pending →
    pendingSize t₀ pending ≤ steps → Copied t₀ t (copyBelow steps pending t) pending
  | steps, [], t, h, _ => by
      have hdone : Tree.copyBelow steps [] t = t := by cases steps <;> rfl
      rw [hdone]
      exact .nil h.sound
  | 0, (source, target) :: pending, t, h, hle => by
      have hpos := h₀.pendingSize_pos (source, target) pending
      omega
  | steps + 1, (source, target) :: pending, t, h, hle => by
      obtain ⟨pairs, hpend, hfst, hcopies, hcopying, hsize⟩ := h.round h₀
      have hrest := Copying.copyBelow h₀ steps (pairs.reverse ++ pending) hcopying (by omega)
      rw [Tree.copyBelow]
      simp only [hpend]
      exact .cons h₀ h hcopies hfst hrest

/-- A new node changes nothing at the places of the others. -/
theorem Sound.agreeAt_copyNode (h : t.Sound) (id : NodeId) {x : NodeId} (hx : x.index < t.size) :
    AgreeAt t (t.copyNode id) x := by
  refine ⟨node_push_of_lt _ hx, ?_, h.children_push _ x⟩
  rw [copyNode, parent, links_push, ← parent]

/-- The loop starts with the copy of the head. -/
theorem Sound.copying_copyNode (h : t.Sound) {id : NodeId} (hid : id.index < t.size) :
    Copying t (t.copyNode id) [(id, t.nextId)] := by
  refine ⟨h.push _, by simp [copyNode], fun x => h.agreeAt_copyNode id, by simp, ?_⟩
  intro e he
  obtain rfl := List.mem_singleton.1 he
  refine ⟨hid, Nat.le_refl _, by simp [copyNode, nextId], ?_, by simp [copyNode, node_push]⟩
  rw [copyNode, h.children_push]
  exact h.children_eq_nil (Nat.le_refl t.size)

/-- The rounds that the loop is granted are enough for it. -/
theorem Sound.pendingSize_le_grantedSteps (h : t.Sound) {id : NodeId} (hid : id.index < t.size) :
    pendingSize t [(id, t.nextId)] ≤ grantedSteps t.size := by
  refine Nat.le_trans ?_ (le_grantedSteps _)
  simpa [pendingSize, Forest.size] using h.size_branch_le hid

/-- **A deep copy is isolated and has the branch of its original.** -/
theorem Sound.copyTree (h : t.Sound) {id : NodeId} (hid : id.index < t.size) :
    (t.copyTree id).Sound ∧ (t.copyTree id).root = t.root ∧
      (t.copyTree id).size = t.size + (t.branch id).size ∧
      (t.copyTree id).branch t.nextId = t.branch id ∧
      (t.copyTree id).parent t.nextId = none ∧
      ∀ x, x.index < t.size → AgreeAt t (t.copyTree id) x := by
  have hdone := (h.copying_copyNode hid).copyBelow h _ _ (h.pendingSize_le_grantedSteps hid)
  rw [← Tree.copyTree] at hdone
  have hnew : t.nextId.index < (t.copyNode id).size := by simp [copyNode, nextId]
  have hlt : ∀ x : NodeId, x.index < t.size → x.index < (t.copyNode id).size := fun x hx => by
    simpa [copyNode] using Nat.lt_succ_of_lt hx
  refine ⟨hdone.sound, hdone.root, ?_, ?_, ?_, ?_⟩
  · have hsize := hdone.size
    simp only [pendingSize, copyNode, size_push, List.length_singleton, List.map_cons, List.map_nil,
      Forest.size] at hsize
    omega
  · exact hdone.branch (id, t.nextId) (by simp)
  · rw [hdone.parent _ hnew, copyNode, parent, links_push, ← parent]
    exact parent_of_size_le (Nat.le_refl t.size)
  · intro x hx
    refine (h.agreeAt_copyNode id hx).trans ⟨hdone.node x (hlt x hx), hdone.parent x (hlt x hx), ?_⟩
    refine hdone.other x (hlt x hx) ?_
    simpa using nextId_ne hx

end Shorthand.Tree
