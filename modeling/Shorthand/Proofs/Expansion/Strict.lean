import Shorthand.Proofs.Expansion.Ownership
import Shorthand.Proofs.Expansion.WholeCopies
import Shorthand.Proofs.Tree.ParsedNodes

/-!
# Strict expansion

Strict mode looks a tree through before it changes anything, and refuses it for the first node, in
pre-order, with a repeat that has no count (`bareRepeat?_eq_some`). Any other tree it expands as
lenient mode does.

The look is at the tree as it is, the promise is about what it becomes. They are tied by what each
node brings into an expansion (`Forest.every_expand`): the stamps of its copies, or the repeat that
it has, if that is not pending. So a tree that was read, in which all repeats are pending, is left
with stamps only, each of which counts a copy of a number that was written out (`expand_strict`).
-/

namespace Shorthand

open Expansion

/-! ### Bare repeats and stamps -/

/-- The node is still to be repeated, and does not say how often. -/
def Node.Bare (node : Node) : Prop :=
  ∃ r, node.pendingRepeat = some r ∧ r.count = none

/-- The number of a copy, out of as many as were asked for. -/
def Repeat.IsStamp (r : Repeat) : Prop :=
  ∃ n k, r = { count := some n, copy := some k } ∧ 1 ≤ k ∧ k ≤ n

/-- The repeat of the node, if it has one, is the number of a copy. -/
def Node.Stamped (node : Node) : Prop :=
  ∀ r, node.repeats = some r → r.IsStamp

theorem Repeat.IsStamp.stamped {r : Repeat} (h : r.IsStamp) (node : Node) :
    Node.Stamped { node with repeats := some r } := by
  intro r' hr
  obtain rfl := Option.some.inj hr
  exact h

/-- A node that is not numbered yet brings in nothing but stamps, unless its repeat is bare. -/
theorem Node.Unnumbered.brings_stamped {node : Node} (h : node.Unnumbered) (hbare : ¬node.Bare) :
    node.Brings Node.Stamped := by
  have hstamp : ∀ r k, node.pendingRepeat = some r → 1 ≤ k → k ≤ r.copies →
      Repeat.IsStamp { count := r.count, copy := some k } := by
    intro r k hr hk hle
    cases hcount : r.count with
    | none => exact absurd ⟨r, hr, hcount⟩ hbare
    | some n =>
        rw [Repeat.copies, hcount, Option.getD_some] at hle
        exact ⟨n, k, rfl, hk, hle⟩
  refine ⟨fun r k hr hk hle _ => (hstamp r k hr hk hle).stamped node,
    fun r k hr hk hle inner _ => (hstamp r k hr hk hle).stamped inner, fun hpending _ r hr => ?_⟩
  rw [h.repeats_eq_none hpending] at hr
  cases hr

/-! ### The check -/

namespace Expansion

variable {t : Tree}

theorem hasBareRepeat_iff {node : Node} : hasBareRepeat node = true ↔ node.Bare := by
  simp [hasBareRepeat, Option.any_eq_true, Node.Bare]

/-- At this place in the pre-order of the forest, groups counted, there is a node with a bare
repeat. -/
def BareAt (f : Forest) (i : Nat) : Prop :=
  ∃ node, (Forest.nodes f)[i]? = some node ∧ node.Bare

theorem bareRepeat?_eq (h : t.Sound) :
    bareRepeat? t = (Forest.nodes t.forest).findIdx? hasBareRepeat := by
  rw [Forest.nodes, ← h.contents_eq, Tree.contents, List.map_map, List.findIdx?_map]
  rfl

/-- **The check finds the first bare repeat.** -/
theorem bareRepeat?_eq_some (h : t.Sound) {pos : Nat} :
    bareRepeat? t = some pos ↔ BareAt t.forest pos ∧ ∀ i < pos, ¬BareAt t.forest i := by
  have hat : ∀ i (hi : i < (Forest.nodes t.forest).length),
      BareAt t.forest i ↔ hasBareRepeat (Forest.nodes t.forest)[i] = true := by
    intro i hi
    simp [BareAt, List.getElem?_eq_getElem hi, hasBareRepeat_iff]
  rw [bareRepeat?_eq h, List.findIdx?_eq_some_iff_getElem]
  constructor
  · rintro ⟨hpos, hbare, hfirst⟩
    refine ⟨(hat pos hpos).2 hbare, fun i hi hbare => hfirst i hi ?_⟩
    exact (hat i (Nat.lt_trans hi hpos)).1 hbare
  · rintro ⟨hbare, hfirst⟩
    have hpos : pos < (Forest.nodes t.forest).length := by
      obtain ⟨node, hnode, -⟩ := hbare
      exact (List.getElem?_eq_some_iff.1 hnode).1
    exact ⟨hpos, (hat pos hpos).1 hbare, fun i hi hi' =>
      hfirst i hi ((hat i (Nat.lt_trans hi hpos)).2 hi')⟩

/-- It misses none. -/
theorem isSome_bareRepeat? (h : t.Sound) :
    (bareRepeat? t).isSome ↔ ∃ id, t.Below t.root id ∧ id ≠ t.root ∧ (t.node id).Bare := by
  simp only [bareRepeat?, List.findIdx?_isSome, List.any_eq_true, hasBareRepeat_iff,
    ← and_assoc, ← h.mem_map_descendants, List.mem_map]
  constructor
  · rintro ⟨entry, hentry, hbare⟩
    exact ⟨entry.1, ⟨entry, hentry, rfl⟩, hbare⟩
  · rintro ⟨-, ⟨entry, hentry, rfl⟩, hbare⟩
    exact ⟨entry, hentry, hbare⟩

theorem every_not_bare (h : t.Sound) (hnone : bareRepeat? t = none) :
    Forest.Every (fun node => ¬node.Bare) t.forest := by
  rw [bareRepeat?_eq h, List.findIdx?_eq_none_iff] at hnone
  intro node hnode hbare
  have hmissed := hnone node hnode
  rw [hasBareRepeat_iff.2 hbare] at hmissed
  exact absurd hmissed (by decide)

/-! ### Expansion in place -/

/-- Looks through the tree that is held, and refuses it if it has a bare repeat. -/
def checkCounts : ExceptT Refusal (StateM Tree) Unit := do
  match bareRepeat? (← get) with
  | some position => throw (.bareRepeat position)
  | none => return ()

/-- Expands the tree that is held, which is looked through first in strict mode. -/
def expandInPlace (o : Options) : ExceptT Refusal (StateM Tree) Expansion := do
  if o.strict then checkCounts
  let (t, expansion) := unrollWithin o.budget.limit? (← get)
  set t
  return expansion

theorem run_checkCounts (t : Tree) : checkCounts.run.run t =
    match bareRepeat? t with
    | some position => (.error (.bareRepeat position), t)
    | none => (.ok (), t) := by
  have hget : checkCounts.run.run t =
      (ExceptT.run (match bareRepeat? t with
        | some position => throw (.bareRepeat position)
        | none => return () : ExceptT Refusal (StateM Tree) Unit)).run t := rfl
  rw [hget]
  cases bareRepeat? t <;> rfl

/-- **What is refused is left as it was.** -/
theorem run_expandInPlace (o : Options) (t : Tree) :
    (expandInPlace o).run.run t =
      match expand o t with
      | .ok (t', expansion) => (.ok expansion, t')
      | .error refusal => (.error refusal, t) := by
  have hcheck := run_checkCounts t
  rw [expandInPlace, expand]
  cases hstrict : o.strict with
  | false => rfl
  | true =>
      simp only [if_true, ExceptT.run_bind, StateT.run_bind, hcheck]
      cases bareRepeat? t <;> rfl

/-! ### Repeats of the result -/

/-- All that can be reached after an expansion was brought in, but for the root. -/
theorem brought_unrollWithin {Q : Node → Prop} (h : t.Sound) (limit : Option Nat)
    (hforest : t.forest.Every (Node.Brings Q)) (hroot : Q (t.node t.root)) :
    ∀ id, (unrollWithin limit t).1.Below (unrollWithin limit t).1.root id →
      Q ((unrollWithin limit t).1.node id) := by
  intro id hid
  obtain ⟨hyields, -⟩ := yields_unrollWithin h limit
  obtain ⟨new, hreplaced⟩ := hyields.replaced
  -- The root is in no forest, but it is an old node.
  have hkept : (unrollWithin limit t).1.node t.root = t.node t.root := by
    rw [unrollWithin_eq_play]
    exact Tree.node_play_of_spares (spares_unroll h.coherent limit) (Nat.le_refl _) h.coherent.root
  rcases hyields.sound.node_of_below hid with heq | hnode
  · rwa [heq, hreplaced.root, hkept]
  · exact Forest.every_expand t.forest hforest _ (nodes_unrollWithin_subset h limit hnode)

/-- **Strict mode refuses bare repeats, and nothing else.** A tree is refused just when a node below
the root has a bare repeat; the refusal names the first such place in pre-order, groups counted, and
the tree is left as it was. Any other tree is expanded as in lenient mode. If it was read from an
abbreviation, all repeats that can be reached in the result are then numbers of copies, out of as
many as were asked for. -/
theorem expand_strict (t : Tree) (hcoherent : t.Coherent) (hacyclic : t.Acyclic)
    (limit : Option Nat) :
    ((∃ pos, expand { limit, strict := true } t = .error (.bareRepeat pos)) ↔
        ∃ id, t.Below t.root id ∧ id ≠ t.root ∧ (t.node id).Bare) ∧
      (∀ pos, expand { limit, strict := true } t = .error (.bareRepeat pos) →
        BareAt t.forest pos ∧ (∀ i < pos, ¬BareAt t.forest i) ∧
          (expandInPlace { limit, strict := true }).run.run t = (.error (.bareRepeat pos), t)) ∧
      ((¬∃ pos, expand { limit, strict := true } t = .error (.bareRepeat pos)) →
        ∃ t' e, expand { limit, strict := true } t = .ok (t', e) ∧
          expand { limit, strict := false } t = .ok (t', e) ∧
          ∀ strict, (expandInPlace { limit, strict }).run.run t = (.ok e, t')) ∧
      ∀ source t' e, Tree.parse source = .ok t →
        expand { limit, strict := true } t = .ok (t', e) →
        ∀ id r, t'.Below t'.root id → (t'.node id).repeats = some r →
          ∃ n k, r = { count := some n, copy := some k } ∧ 1 ≤ k ∧ k ≤ n := by
  have h : t.Sound := ⟨hcoherent, hacyclic⟩
  have hrefused : ∀ pos, expand { limit, strict := true } t = .error (.bareRepeat pos) ↔
      bareRepeat? t = some pos := by
    intro pos
    rw [expand, if_pos rfl]
    cases bareRepeat? t <;> simp
  have hpassed : bareRepeat? t = none → ∀ strict,
      expand { limit, strict } t = .ok (unrollWithin (Options.budget { limit }).limit? t) := by
    intro hnone strict
    rw [expand, hnone, ite_self]
    rfl
  refine ⟨?_, ?_, ?_, ?_⟩
  · simp only [hrefused, ← Option.isSome_iff_exists, isSome_bareRepeat? h]
  · intro pos hpos
    obtain ⟨hat, hfirst⟩ := (bareRepeat?_eq_some h).1 ((hrefused pos).1 hpos)
    exact ⟨hat, hfirst, by rw [run_expandInPlace, hpos]⟩
  · -- The check found nothing, so both modes go on to the same expansion.
    intro hnot
    have hok := hpassed (Option.eq_none_iff_forall_ne_some.2 fun pos hpos =>
      hnot ⟨pos, (hrefused pos).2 hpos⟩)
    refine ⟨_, _, hok true, hok false, fun strict => ?_⟩
    rw [run_expandInPlace, hok strict]
    rfl
  · intro source t' e hparse hok id r hid hr
    have hnone : bareRepeat? t = none := Option.eq_none_iff_forall_ne_some.2 fun pos hpos => by
      rw [(hrefused pos).2 hpos] at hok
      cases hok
    -- A parse leaves no numbers and the check no bare repeats, so all that is brought in is stamped.
    have hforest : t.forest.Every (Node.Brings Node.Stamped) := fun node hnode =>
      (Tree.unnumbered_of_parse hparse node hnode).brings_stamped (every_not_bare h hnone node hnode)
    have hroot : (t.node t.root).Stamped := by
      rw [Tree.node_root_parse hparse]
      intro r hr
      cases hr
    have hstamped :=
      brought_unrollWithin h (Options.budget { limit, strict := true }).limit? hforest hroot
    rw [unrollWithin_of_expand hok] at hstamped
    exact hstamped id hid r hr

/-- The third node of `(a+b*)*2+c*` is refused, the group counted. What a limit leaves of
`(a*2>b*3)*4` is one copy of the group, of which the second `a` carries the number. -/
theorem expand_strict_nested :
    (∃ t, Tree.parse "(a+b*)*2+c*" = .ok t ∧ t.Coherent ∧ t.Acyclic ∧
      (∃ id, t.Below t.root id ∧ id ≠ t.root ∧ (t.node id).Bare) ∧
      (expandInPlace { limit := some 1, strict := true }).run.run t = (.error (.bareRepeat 2), t)) ∧
    ∃ t t' e, Tree.parse "(a*2>b*3)*4" = .ok t ∧ t.Coherent ∧ t.Acyclic ∧
      expand { limit := some 11, strict := true } t = .ok (t', e) ∧ t'.Below t'.root ⟨12⟩ ∧
      (t'.node ⟨12⟩).repeats = some { count := some 4, copy := some 1 } ∧
      ∃ n k, ({ count := some 4, copy := some 1 } : Repeat) = { count := some n, copy := some k } ∧
        1 ≤ k ∧ k ≤ n := by
  refine ⟨?_, ?_⟩
  · obtain ⟨t, hparse, hcheck⟩ : ∃ t, Tree.parse "(a+b*)*2+c*" = .ok t ∧ bareRepeat? t = some 2 :=
      Tree.exists_parse_of_map (by decide +kernel)
    have h := (Tree.parse_ok hparse).1
    have hexpand : expand { limit := some 1, strict := true } t = .error (.bareRepeat 2) := by
      rw [expand, if_pos rfl, hcheck]
    obtain ⟨hrefused, hfirst, -, -⟩ := expand_strict t h.coherent h.acyclic (some 1)
    exact ⟨t, hparse, h.coherent, h.acyclic, hrefused.1 ⟨2, hexpand⟩, (hfirst 2 hexpand).2.2⟩
  · obtain ⟨t, hparse, hresult⟩ : ∃ t, Tree.parse "(a*2>b*3)*4" = .ok t ∧
        (bareRepeat? t, let t' := (unrollWithin (some 11) t).1
          (t'.root, t'.parent ⟨12⟩, (t'.node ⟨12⟩).repeats)) =
        (none, ⟨0⟩, some ⟨0⟩, some { count := some 4, copy := some 1 }) :=
      Tree.exists_parse_of_map (by decide +kernel)
    simp only [Prod.mk.injEq] at hresult
    obtain ⟨hcheck, hroot, hparent, hrepeats⟩ := hresult
    have h := (Tree.parse_ok hparse).1
    have hexpand : expand { limit := some 11, strict := true } t = .ok (unrollWithin (some 11) t) := by
      rw [expand, hcheck]
      rfl
    have hbelow : (unrollWithin (some 11) t).1.Below (unrollWithin (some 11) t).1.root ⟨12⟩ :=
      (Tree.Below.refl _).child (by rw [hparent, hroot])
    obtain ⟨-, -, -, hstamps⟩ := expand_strict t h.coherent h.acyclic (some 11)
    exact ⟨t, _, _, hparse, h.coherent, h.acyclic, hexpand, hbelow, hrepeats,
      hstamps _ _ _ hparse hexpand _ _ hbelow hrepeats⟩

end Expansion

end Shorthand
