import Shorthand.Proofs.Tree.Builder

/-!
# Walks under a visitor that detaches

A walk hands the tree to its visitor, which may detach the node that it is given and change the data
of that node. It goes on as if nothing had happened: the nodes visited are those that `descendants`
listed before the walk, up to the first call that stops it (`walk_visits_descendants`).

What is still to be visited is read off the stack (`Awaits`): for each entry, the siblings from it
on with all that is below them. These are nodes that have not been visited yet. A visited node is
none of them, and detaching it takes it out of one sequence of children only, so what is awaited
stays the same (`Awaits.touched`).
-/

namespace Shorthand.Tree

variable {t t' : Tree} {σ : Type}

/-! ### Visitors that keep to their node -/

/-- At most the node `id` has been touched: it may have been detached, and its data may be other
data. -/
structure Touched (t t' : Tree) (id : NodeId) : Prop where
  root : t'.root = t.root
  size : t'.size = t.size
  node : ∀ x, x ≠ id → t'.node x = t.node x
  links : (∀ x, t'.links x = t.links x) ∨ ∀ x, t'.links x = (t.remove id).links x

/-- On every call with a sound tree, the visitor touches at most the node that it is given. What it
does and whether it goes on may depend on the tree, on the depth, and on all that it has noted in
its state. -/
def Visitor.Detaching (visit : Visitor σ) : Prop :=
  ∀ t s id depth, t.Sound → Touched t (visit t s id depth).2.1 id

/-- A visitor that also notes its calls, in order, each with whether the visitor then went on. -/
def Visitor.noting (visit : Visitor σ) : Visitor (σ × List ((NodeId × Nat) × Flow)) :=
  fun t s id depth =>
    let (flow, t, state) := visit t s.1 id depth
    (flow, t, state, s.2 ++ [((id, depth), flow)])

theorem Visitor.Detaching.noting {visit : Visitor σ} (h : visit.Detaching) :
    visit.noting.Detaching :=
  fun t s id depth => h t s.1 id depth

namespace Touched

variable {id : NodeId}

/-- The sequences of children are as they were, or lack the node. -/
theorem spells (ht : Touched t t' id) (h : t.Sound) :
    t'.Spells t.children ∨ t'.Spells fun q => (t.children q).erase id := by
  rcases ht.links with hlinks | hlinks
  · exact Or.inl (h.spells.of_links_eq hlinks (Nat.le_of_eq ht.size.symm))
  · refine Or.inr ((h.spells.remove id).of_links_eq hlinks ?_)
    exact Nat.le_of_eq ((size_remove t id).trans ht.size.symm)

theorem children (ht : Touched t t' id) (h : t.Sound) :
    (∀ q, t'.children q = t.children q) ∨ ∀ q, t'.children q = (t.children q).erase id :=
  (ht.spells h).imp (fun hs => hs.children_eq) fun hs => hs.children_eq

theorem sound (ht : Touched t t' id) (h : t.Sound) : t'.Sound := by
  obtain ⟨rank, hr⟩ := h.exists_rank
  have hroot : t'.root.index < t'.size := by
    rw [ht.root, ht.size]
    exact h.coherent.root
  rcases ht.spells h with hs | hs
  · exact hs.sound hroot hr
  · exact hs.sound hroot fun p c hc => hr p c (List.mem_of_mem_erase hc)

/-- Only the sequence that the node was in can have changed. -/
theorem children_of_not_mem (ht : Touched t t' id) (h : t.Sound) {q : NodeId}
    (hq : id ∉ t.children q) : t'.children q = t.children q := by
  rcases ht.children h with hkids | hkids
  · exact hkids q
  · rw [hkids, List.erase_of_not_mem hq]

/-- What does not hold the node is listed as before. -/
theorem preorder_eq (ht : Touched t t' id) (h : t.Sound) {a : NodeId} (ha : ¬t.Below a id)
    (depth : Nat) : t'.preorder depth a = t.preorder depth a := by
  refine h.induction (P := fun a => ¬t.Below a id → ∀ depth,
    t'.preorder depth a = t.preorder depth a) ?_ a ha depth
  intro a ih ha depth
  have hnot : ∀ c ∈ t.children a, ¬t.Below c id := fun c hc hb =>
    ha (Below.of_parent (h.parent_eq_some_iff.2 hc) hb)
  have hkids := ht.children_of_not_mem h fun hm => hnot id hm (Below.refl id)
  rw [h.preorder_eq, (ht.sound h).preorder_eq, hkids]
  exact congrArg _ (List.flatMap_congr fun c hc => ih c hc (hnot c hc) (depth + 1))

end Touched

/-! ### What is awaited -/

/-- What a walk with the given stack still has to visit. -/
inductive Awaits (t : Tree) : List (Option NodeId × Nat) → List (NodeId × Nat) → Prop where
  | nothing : Awaits t [] []
  | siblings {p : NodeId} {l r : List NodeId} {depth : Nat} {stack : List (Option NodeId × Nat)}
      {todo : List (NodeId × Nat)} (children : t.children p = l ++ r) (rest : Awaits t stack todo) :
      Awaits t ((r.head?, depth) :: stack) (r.flatMap (t.preorder depth) ++ todo)

/-- Touching a node that is not awaited leaves what is awaited. -/
theorem Awaits.touched {stack : List (Option NodeId × Nat)} {todo : List (NodeId × Nat)} {id : NodeId}
    (hw : t.Awaits stack todo) (h : t.Sound) (ht : Touched t t' id) (hid : id ∉ todo.map Prod.fst) :
    t'.Awaits stack todo := by
  induction hw with
  | nothing => exact Awaits.nothing
  | @siblings p l r depth stack todo hk hrest ih =>
      rw [List.map_append, List.mem_append, not_or] at hid
      have hbelow : ∀ c ∈ r, ¬t.Below c id := by
        intro c hc hb
        refine hid.1 ?_
        rw [List.map_flatMap, List.mem_flatMap]
        exact ⟨c, hc, (h.mem_preorder depth).2 hb⟩
      have hr : id ∉ r := fun hm => hbelow id hm (Below.refl id)
      obtain ⟨l', hk'⟩ : ∃ l', t'.children p = l' ++ r := by
        rcases ht.children h with hkids | hkids
        · exact ⟨l, by rw [hkids, hk]⟩
        · refine ⟨l.erase id, ?_⟩
          by_cases hl : id ∈ l
          · rw [hkids, hk, List.erase_append_left _ hl]
          · rw [hkids, hk, List.erase_append_right _ hl, List.erase_of_not_mem hr,
              List.erase_of_not_mem hl]
      have hlist : r.flatMap (t.preorder depth) = r.flatMap (t'.preorder depth) :=
        List.flatMap_congr fun c hc => (ht.preorder_eq h (hbelow c hc) depth).symm
      rw [hlist]
      exact Awaits.siblings hk' (ih hid.2)

/-- **One visit.** The node on top of the stack is the one awaited first. Whatever the visitor does
to it, the children that it then has and the sibling that it had before lead to the rest of what is
awaited. -/
theorem Awaits.visit {stack : List (Option NodeId × Nat)} {todo : List (NodeId × Nat)} {id : NodeId}
    {depth : Nat} (hw : t.Awaits ((some id, depth) :: stack) todo) (h : t.Sound)
    (hnd : (todo.map Prod.fst).Nodup) :
    ∃ rest, todo = (id, depth) :: rest ∧ ∀ t', Touched t t' id →
      t'.Awaits ((t'.firstChild id, depth + 1) :: (t.next id, depth) :: stack) rest := by
  generalize hstack : (some id, depth) :: stack = stack' at hw
  cases hw with
  | nothing => exact absurd hstack (by simp)
  | @siblings p l r depth' stack' todo hk hrest =>
      obtain ⟨⟨hhead, rfl⟩, rfl⟩ : (some id = r.head? ∧ depth = depth') ∧ stack = stack' := by
        simpa using hstack
      obtain ⟨r, rfl⟩ : ∃ r', r = id :: r' := List.head?_eq_some_iff.1 hhead.symm
      have hbeside : t.Awaits ((t.next id, depth) :: stack) (r.flatMap (t.preorder depth) ++ todo) := by
        rw [(h.spells.around p l id r hk).2]
        exact Awaits.siblings (p := p) (l := l ++ [id]) (by simp [hk]) hrest
      have hbelow : t.Awaits (((t.children id).head?, depth + 1) :: (t.next id, depth) :: stack)
          ((t.children id).flatMap (t.preorder (depth + 1)) ++ (r.flatMap (t.preorder depth) ++ todo)) :=
        Awaits.siblings (List.nil_append (t.children id)).symm hbeside
      rw [List.flatMap_cons, h.preorder_eq, List.cons_append, List.cons_append,
        List.append_assoc] at hnd ⊢
      refine ⟨_, rfl, fun t' ht => ?_⟩
      rw [List.map_cons, List.nodup_cons] at hnd
      have hself : id ∉ t.children id := fun hm =>
        h.acyclic.ne_of_parent (h.parent_eq_some_iff.2 hm) rfl
      rw [(ht.sound h).spells.first id, ht.children_of_not_mem h hself]
      exact hbelow.touched h ht hnd.1

/-! ### The walk -/

/-- Visits the nodes of a list in turn, until the visitor stops. -/
def visitAll (visit : Visitor σ) : List (NodeId × Nat) → Tree → σ → Walk σ
  | [], t, s => ⟨t, s, false⟩
  | (id, depth) :: rest, t, s =>
    match visit t s id depth with
    | (.stop, t, s) => ⟨t, s, true⟩
    | (.proceed, t, s) => visitAll visit rest t s

/-- **A walk visits what its stack awaits.** Each visit takes one step and puts one more entry on the
stack, and each entry takes one step to be taken off. -/
theorem walkStack_eq_visitAll {visit : Visitor σ} (hvisit : visit.Detaching) (steps : Nat)
    {stack : List (Option NodeId × Nat)} {todo : List (NodeId × Nat)} (s : σ) (h : t.Sound)
    (hw : t.Awaits stack todo) (hnd : (todo.map Prod.fst).Nodup)
    (hsteps : 2 * todo.length + stack.length ≤ steps) :
    walkStack visit steps stack t s = visitAll visit todo t s := by
  induction steps generalizing stack todo t s with
  | zero =>
      obtain rfl : stack = [] := List.length_eq_zero_iff.1 (by omega)
      cases hw
      rfl
  | succ steps ih =>
      match stack with
      | [] =>
          cases hw
          rfl
      | (none, depth) :: stack =>
          -- An entry without a node awaits nothing.
          rw [walkStack]
          generalize hstack : (none, depth) :: stack = stack' at hw
          cases hw with
          | nothing => exact absurd hstack (by simp)
          | @siblings p l r depth' stack' todo hk hrest =>
              obtain ⟨⟨hhead, rfl⟩, rfl⟩ : (none = r.head? ∧ depth = depth') ∧ stack = stack' := by
                simpa using hstack
              obtain rfl : r = [] := List.head?_eq_none_iff.1 hhead.symm
              rw [List.flatMap_nil, List.nil_append] at hnd hsteps ⊢
              rw [List.length_cons] at hsteps
              exact ih s h hrest hnd (by omega)
      | (some id, depth) :: stack =>
          -- The node is visited, which leaves what is awaited behind it as it is.
          obtain ⟨rest, rfl, hrest⟩ := hw.visit h hnd
          have ht := hvisit t s id depth h
          rw [List.map_cons, List.nodup_cons] at hnd
          rw [List.length_cons, List.length_cons] at hsteps
          rw [walkStack, visitAll]
          generalize visit t s id depth = result at ht
          obtain ⟨flow, t', s'⟩ := result
          cases flow with
          | stop => rfl
          | proceed =>
              refine ih s' (ht.sound h) (hrest t' ht) hnd.2 ?_
              rw [List.length_cons, List.length_cons]
              omega

theorem walk_eq_visitAll {visit : Visitor σ} (hvisit : visit.Detaching) (h : t.Sound) (id : NodeId)
    (s : σ) {steps : Nat} (hsteps : 2 * (t.descendants id).length + 1 ≤ steps) :
    walk steps visit t id s = visitAll visit (t.descendants id) t s := by
  rw [h.descendants_eq] at hsteps ⊢
  have hw : t.Awaits [((t.children id).head?, 0)] ((t.children id).flatMap (t.preorder 0) ++ []) :=
    Awaits.siblings (List.nil_append (t.children id)).symm Awaits.nothing
  rw [List.append_nil] at hw
  rw [walk, h.spells.first id]
  refine walkStack_eq_visitAll hvisit steps s h hw ?_ hsteps
  exact h.nodup_siblings (List.Sublist.refl _) fun c _ => h.nodup_preorder 0 c

/-! ### What is noted -/

/-- Noting the calls makes no other difference. -/
theorem visitAll_noting (visit : Visitor σ) (todo : List (NodeId × Nat)) (t : Tree) (s : σ)
    (noted : List ((NodeId × Nat) × Flow)) :
    visitAll visit todo t s =
      let w := visitAll visit.noting todo t (s, noted)
      ⟨w.tree, w.state.1, w.stopped⟩ := by
  induction todo generalizing t s noted with
  | nil => rfl
  | cons entry todo ih =>
      rw [visitAll, visitAll, Visitor.noting]
      generalize visit t s entry.1 entry.2 = result
      obtain ⟨flow, t', s'⟩ := result
      cases flow with
      | stop => rfl
      | proceed => exact ih t' s' _

/-- The calls go through the list, to its end or to the first one that stops. -/
theorem noted_visitAll (visit : Visitor σ) (todo : List (NodeId × Nat)) (t : Tree) (s : σ)
    (noted : List ((NodeId × Nat) × Flow)) :
    let w := visitAll visit.noting todo t (s, noted)
    (w.stopped = false ∧ w.state.2 = noted ++ todo.map (·, Flow.proceed)) ∨
      (w.stopped = true ∧ ∃ before last after, todo = before ++ last :: after ∧
        w.state.2 = noted ++ before.map (·, Flow.proceed) ++ [(last, Flow.stop)]) := by
  induction todo generalizing t s noted with
  | nil => exact Or.inl ⟨rfl, by simp [visitAll]⟩
  | cons entry todo ih =>
      rw [visitAll, Visitor.noting]
      generalize visit t s entry.1 entry.2 = result
      obtain ⟨flow, t', s'⟩ := result
      cases flow with
      | stop => exact Or.inr ⟨rfl, [], entry, todo, rfl, by simp⟩
      | proceed =>
          rcases ih t' s' (noted ++ [(entry, .proceed)]) with ⟨hgoes, hcalls⟩ | ⟨hstops, hcut⟩
          · refine Or.inl ⟨hgoes, hcalls.trans ?_⟩
            simp
          · obtain ⟨before, last, after, htodo, hcalls⟩ := hcut
            refine Or.inr ⟨hstops, entry :: before, last, after, by simp [htodo], hcalls.trans ?_⟩
            simp

/-- **A walk is not derailed by a visitor that detaches.** Let the visitor touch at most the node
that it is given, on each call. The walk ends, and the calls that it makes go through what
`descendants` listed before the walk: all of it, if every call goes on; else up to and with the
first one that stops, and then the walk says that it was stopped. -/
theorem walk_visits_descendants (t : Tree) (hcoherent : t.Coherent) (hacyclic : t.Acyclic) (id : NodeId)
    (visit : Visitor σ) (hvisit : visit.Detaching) (s : σ) (steps : Nat)
    (hsteps : 2 * (t.descendants id).length + 1 ≤ steps) :
    let w := walk steps visit.noting t id (s, [])
    walk steps visit t id s = ⟨w.tree, w.state.1, w.stopped⟩ ∧
      ((w.stopped = false ∧ w.state.2 = (t.descendants id).map (·, Flow.proceed)) ∨
        (w.stopped = true ∧ ∃ before last after, t.descendants id = before ++ last :: after ∧
          w.state.2 = before.map (·, Flow.proceed) ++ [(last, Flow.stop)])) := by
  have h : t.Sound := ⟨hcoherent, hacyclic⟩
  rw [walk_eq_visitAll hvisit h id s hsteps, walk_eq_visitAll hvisit.noting h id (s, []) hsteps]
  exact ⟨visitAll_noting visit _ t s [], noted_visitAll visit _ t s []⟩

/-- Detaches and renames every node, and stops on the fourth call. -/
def fellFour : Visitor Nat := fun t seen id _ =>
  (if seen = 3 then .stop else .proceed,
    (t.remove id).modifyNode id fun n => { n with name := some "felled" }, seen + 1)

theorem detaching_fellFour : fellFour.Detaching := by
  intro t seen id depth _
  refine ⟨by simp [fellFour], by simp [fellFour], fun x hx => ?_, Or.inr fun x => ?_⟩
  · rw [fellFour, node_modifyNode_of_ne _ hx, node_remove]
  · rw [fellFour, links_modifyNode]

/-- All nodes that are met are detached, also from parents that have been detached before, and the
walk stops at the fourth of five. -/
theorem walk_visits_descendants_felled : ∃ t, Tree.parse "p>a>b^c+d" = .ok t ∧ t.Coherent ∧ t.Acyclic ∧
    fellFour.Detaching ∧ 2 * (t.descendants ⟨0⟩).length + 1 ≤ 20 ∧
    t.descendants ⟨0⟩ = [(⟨1⟩, 0), (⟨2⟩, 1), (⟨3⟩, 2), (⟨4⟩, 1), (⟨5⟩, 1)] ∧
    (walk 20 fellFour.noting t ⟨0⟩ (0, [])).state.2 =
      [((⟨1⟩, 0), .proceed), ((⟨2⟩, 1), .proceed), ((⟨3⟩, 2), .proceed), ((⟨4⟩, 1), .stop)] ∧
    (walk 20 fellFour t ⟨0⟩ 0).stopped = true := by
  obtain ⟨t, hparse, hresult⟩ : ∃ t, Tree.parse "p>a>b^c+d" = .ok t ∧
      (t.descendants ⟨0⟩, (walk 20 fellFour.noting t ⟨0⟩ (0, [])).state.2.length,
        (walk 20 fellFour.noting t ⟨0⟩ (0, [])).stopped) =
        ([(⟨1⟩, 0), (⟨2⟩, 1), (⟨3⟩, 2), (⟨4⟩, 1), (⟨5⟩, 1)], 4, true) :=
    Tree.exists_parse_of_map (by decide +kernel)
  simp only [Prod.mk.injEq] at hresult
  obtain ⟨hlist, hcalls, hstopped⟩ := hresult
  have h := (Tree.parse_ok hparse).1
  have hsteps : 2 * (t.descendants ⟨0⟩).length + 1 ≤ 20 := by simp [hlist]
  obtain ⟨hwalk, hcases⟩ := walk_visits_descendants t h.coherent h.acyclic ⟨0⟩ fellFour
    detaching_fellFour 0 20 hsteps
  refine ⟨t, hparse, h.coherent, h.acyclic, detaching_fellFour, hsteps, hlist, ?_, ?_⟩
  · rcases hcases with ⟨hgoes, -⟩ | ⟨-, before, last, after, hcut, hnoted⟩
    · simp [hstopped] at hgoes
    · rw [hnoted] at hcalls ⊢
      rw [hlist] at hcut
      obtain ⟨a, b, c, rfl⟩ : ∃ a b c, before = [a, b, c] :=
        List.length_eq_three.1 (by simpa using hcalls)
      simp only [List.cons_append, List.nil_append, List.cons.injEq] at hcut
      obtain ⟨rfl, rfl, rfl, rfl, -⟩ := hcut
      rfl
  · rw [hwalk, hstopped]

end Shorthand.Tree
