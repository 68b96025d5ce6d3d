import Shorthand.Item.Outline
import Shorthand.Proofs.Tree.Copy
import Shorthand.Tree.Builder

/-!
# The builder builds what the items mean

A `Builder` changes a linked tree item by item; an `Outline` computes the forest that the items
stand for. `Builder.Holds` relates the two. The root and the nodes of the open groups are **tops**:
detached, and each with a part of the tree of its own. At every top the links spell out one spot of
the outline: the context is reached from the top over last children only, which are the open
elements of the spot (`Tree.SpotAt`).

Adding an item keeps the relation (`Builder.Holds.add`), so a whole run does (`Builder.Holds.run_eq`).
-/

namespace Shorthand

namespace Tree

variable {t t' : Tree} {top c : NodeId}

/-! ### Spots in a tree -/

/-- The open elements from `c` up to `top`, innermost first: each is the last child of the one
above. -/
def OpenAt (t : Tree) (top : NodeId) : NodeId → List (Node × List Branch) → Prop
  | c, [] => c = top
  | c, (node, siblings) :: above =>
    t.node c = node ∧ ∃ q before, t.children q = before ++ [c] ∧
      before.map t.branch = siblings.reverse ∧ t.OpenAt top q above

/-- The tree below `top`, with the context `c`, is what the spot says. -/
structure SpotAt (t : Tree) (top c : NodeId) (s : Spot) : Prop where
  siblings : (t.children c).map t.branch = s.siblings.reverse
  openNodes : t.OpenAt top c s.openNodes

theorem OpenAt.below (h : t.Sound) {above : List (Node × List Branch)} (ho : t.OpenAt top c above) :
    t.Below top c := by
  induction above generalizing c with
  | nil =>
      obtain rfl := ho
      exact Below.refl _
  | cons entry above ih =>
      obtain ⟨-, q, before, hq, -, hrest⟩ := ho
      exact (ih hrest).child (h.parent_eq_some_iff.2 (by simp [hq]))

/-- Below `top`, the node `c` has got further children, and nothing else has changed. -/
structure Grown (t t' : Tree) (top c : NodeId) (ids : List NodeId) : Prop where
  sound : t.Sound
  sound' : t'.Sound
  children : t'.children c = t.children c ++ ids
  node : ∀ x, t.Below top x → t'.node x = t.node x
  other : ∀ x, t.Below top x → x ≠ c → t'.children x = t.children x

theorem Grown.branch {ids : List NodeId} (hg : Grown t t' top c ids) {x : NodeId}
    (hx : t.Below top x) (hc : ¬t.Below x c) : t'.branch x = t.branch x := by
  refine hg.sound.branch_congr hg.sound' fun y hy => ?_
  have htop : t.Below top y := Relation.ReflTransGen.trans hx hy
  refine ⟨hg.node y htop, hg.other y htop ?_⟩
  rintro rfl
  exact hc hy

theorem OpenAt.grown {ids : List NodeId} (hg : Grown t t' top c ids) {a : NodeId}
    {above : List (Node × List Branch)} (ho : t.OpenAt top a above) (hac : t.Below a c) :
    t'.OpenAt top a above := by
  induction above generalizing a with
  | nil => exact ho
  | cons entry above ih =>
      have htop := OpenAt.below hg.sound ho
      obtain ⟨hnode, q, before, hq, hbefore, hrest⟩ := ho
      have haq : t.parent a = some q := hg.sound.parent_eq_some_iff.2 (by simp [hq])
      have htopq := OpenAt.below hg.sound hrest
      have hqc : q ≠ c := by
        rintro rfl
        exact hg.sound.acyclic.not_below_of_parent haq hac
      refine ⟨(hg.node a htop).trans hnode, q, before, (hg.other q htopq hqc).trans hq, ?_,
        ih hrest (Below.of_parent haq hac)⟩
      rw [← hbefore]
      refine List.map_congr_left fun b hb => ?_
      have hbq : t.parent b = some q := hg.sound.parent_eq_some_iff.2 (by simp [hq, hb])
      refine hg.branch (htopq.child hbq) (hg.sound.disjoint haq hbq ?_ hac)
      rintro rfl
      exact (hg.sound.spells.not_mem_cut (r := []) hq).1 hb

/-- New children of the context are branches behind the siblings of the spot. -/
theorem SpotAt.grown {ids : List NodeId} {s : Spot} (hs : t.SpotAt top c s)
    (hg : Grown t t' top c ids) : t'.SpotAt top c (s.add (ids.map t'.branch)) := by
  have htop := hs.openNodes.below hg.sound
  refine ⟨?_, hs.openNodes.grown hg (Below.refl c)⟩
  have hold : (t.children c).map t'.branch = (t.children c).map t.branch := by
    refine List.map_congr_left fun d hd => ?_
    have hdc := hg.sound.parent_eq_some_iff.2 hd
    exact hg.branch (htop.child hdc) (hg.sound.acyclic.not_below_of_parent hdc)
  rw [hg.children, List.map_append, hold, hs.siblings]
  simp [Spot.add]

/-- Where nothing has changed below the top, the spot is as it was. -/
theorem SpotAt.congr {s : Spot} (hs : t.SpotAt top c s) (h : t.Sound) (h' : t'.Sound)
    (hframe : ∀ x, t.Below top x → t'.node x = t.node x ∧ t'.children x = t.children x) :
    t'.SpotAt top c s := by
  have htop := hs.openNodes.below h
  have hg : Grown t t' top c [] := by
    refine ⟨h, h', ?_, fun x hx => (hframe x hx).1, fun x hx _ => (hframe x hx).2⟩
    rw [(hframe c htop).2, List.append_nil]
  have hadd := hs.grown hg
  simpa [Spot.add] using hadd

/-- Climbing in the tree is climbing in the spot. -/
theorem SpotAt.above (h : t.Sound) (htop : t.parent top = none) {s : Spot} (hs : t.SpotAt top c s)
    (levels : Nat) : t.SpotAt top (Builder.above t c levels) (s.climbBy levels) := by
  induction levels generalizing c s with
  | zero => exact hs
  | succ levels ih =>
      obtain ⟨siblings, openNodes⟩ := s
      cases openNodes with
      | nil =>
          obtain rfl : c = top := hs.openNodes
          have hstay : ∀ n, Builder.above t c n = c := by
            intro n
            cases n <;> simp [Builder.above, htop]
          have hrest := ih hs
          rw [hstay] at hrest ⊢
          exact hrest
      | cons entry openNodes =>
          obtain ⟨node, before⟩ := entry
          obtain ⟨hnode, q, ids, hq, hbefore, hrest⟩ := hs.openNodes
          have hcq : t.parent c = some q := h.parent_eq_some_iff.2 (by simp [hq])
          have hclimb : t.SpotAt top q (Spot.climb ⟨siblings, (node, before) :: openNodes⟩) := by
            refine ⟨?_, hrest⟩
            rw [hq, List.map_append, hbefore, List.map_singleton, h.branch_eq c, hnode, hs.siblings]
            simp [Spot.climb]
          have habove : Builder.above t c (levels + 1) = Builder.above t q levels := by
            rw [Builder.above, hcq]
          rw [habove, Spot.climbBy]
          exact ih hclimb

theorem openNodes_climbBy (n : Nat) (s : Spot) (hn : s.openNodes.length = n) :
    (s.climbBy n).openNodes = [] := by
  induction n generalizing s with
  | zero => exact List.length_eq_zero_iff.1 hn
  | succ n ih =>
      obtain ⟨siblings, openNodes⟩ := s
      cases openNodes with
      | nil => simp at hn
      | cons entry openNodes => exact ih _ (by simpa [Spot.climb] using hn)

/-- The forest of a spot is the forest below its top. -/
theorem SpotAt.forest_eq (h : t.Sound) (htop : t.parent top = none) {s : Spot}
    (hs : t.SpotAt top c s) : s.forest = t.forestBelow top := by
  have hclosed := hs.above h htop s.openNodes.length
  have hnil := openNodes_climbBy _ s rfl
  have hat := hclosed.openNodes
  rw [hnil] at hat
  rw [Spot.forest, ← hclosed.siblings, hat, h.forestBelow_eq]

/-- A new last child of the context, and the context behind it, as its joint says. -/
theorem SpotAt.addElement {s : Spot} {node : Node} (hs : t.SpotAt top c s) (h : t.Sound)
    (hnew : NewLast t t' c node) (htop : t.parent top = none) (hlt : top.index < t.size)
    (joint : Joint) :
    t'.SpotAt top (Builder.follow t' c t.nextId joint) (s.addElement node joint) := by
  have hinside : ∀ x, t.Below top x → x.index < t.size := fun x hx => h.lt_of_below hx hlt
  have hg : Grown t t' top c [t.nextId] :=
    ⟨h, hnew.sound, hnew.children, fun x hx => hnew.node x (hinside x hx),
      fun x hx hne => hnew.other x (hinside x hx) hne⟩
  have hbranch : t'.branch t.nextId = .mk node [] := by
    rw [hnew.sound.branch_eq, hnew.newNode, hnew.newChildren]
    rfl
  have hadd := hs.grown hg
  rw [List.map_singleton, hbranch] at hadd
  cases joint with
  | beside => exact hadd
  | inside =>
      refine ⟨?_, hnew.newNode, c, t.children c, hnew.children, ?_, hadd.openNodes⟩
      · show (t'.children t.nextId).map t'.branch = []
        rw [hnew.newChildren]
        rfl
      · have hold := hadd.siblings
        rw [hnew.children, List.map_append] at hold
        simpa [Spot.add, hbranch] using hold
  | up levels => exact hadd.above hnew.sound ((hnew.parent top hlt).trans htop) levels

/-! ### All spots -/

/-- Two detached nodes have nothing below them in common. -/
theorem eq_of_below_detached {a b x : NodeId} (ha : t.parent a = none) (hb : t.parent b = none)
    (hax : t.Below a x) (hbx : t.Below b x) : a = b := by
  have key : ∀ {a b : NodeId}, t.parent b = none → t.Below a b → a = b := by
    intro a b hb hab
    rcases hab.cases with rfl | ⟨p, hp, -⟩
    · rfl
    · rw [hb] at hp
      exact absurd hp (by simp)
  rcases hax.total hbx with hab | hba
  · exact key hb hab
  · exact (key ha hba).symm

/-- The nodes of the open groups, innermost first, and the root. -/
def tops (t : Tree) (groups : List OpenGroup) : List NodeId :=
  groups.map OpenGroup.node ++ [t.root]

/-- At every top, from the innermost one on, the tree is what the spots say. -/
def Levels (t : Tree) : List OpenGroup → NodeId → Spot → List Spot → Prop
  | [], c, s, [] => t.SpotAt t.root c s
  | group :: groups, c, s, s' :: around =>
    t.SpotAt group.node c s ∧ t.Levels groups group.context s' around
  | _, _, _, _ => False

/-- Nothing that is below the given nodes has changed. -/
def Untouched (t t' : Tree) (ids : List NodeId) : Prop :=
  ∀ top ∈ ids, ∀ x, t.Below top x → t'.node x = t.node x ∧ t'.children x = t.children x

theorem Levels.congr (h : t.Sound) (h' : t'.Sound) (hroot : t'.root = t.root) {groups : List OpenGroup}
    {s : Spot} {around : List Spot} (hl : t.Levels groups c s around)
    (hframe : t.Untouched t' (t.tops groups)) : t'.Levels groups c s around := by
  induction groups generalizing c s around with
  | nil =>
      cases around with
      | nil =>
          have hs : t.SpotAt t.root c s := hl
          have hs' := hs.congr h h' (hframe _ (by simp [tops]))
          rw [← hroot] at hs'
          exact hs'
      | cons s' around => exact hl.elim
  | cons group groups ih =>
      cases around with
      | nil => exact hl.elim
      | cons s' around =>
          obtain ⟨hs, hrest⟩ := hl
          refine ⟨hs.congr h h' (hframe _ (by simp [tops])), ih hrest fun top htop => ?_⟩
          exact hframe top (List.mem_cons_of_mem _ htop)

/-- What changes at the innermost spot, where all others are untouched. -/
theorem Levels.step (h : t.Sound) (h' : t'.Sound) (hroot : t'.root = t.root) {groups : List OpenGroup}
    {c' : NodeId} {s s' : Spot} {around : List Spot} (hl : t.Levels groups c s around)
    (hframe : t.Untouched t' (t.tops groups).tail)
    (hs : ∀ top, (t.tops groups).head? = some top → t.SpotAt top c s → t'.SpotAt top c' s') :
    t'.Levels groups c' s' around := by
  cases groups with
  | nil =>
      cases around with
      | nil =>
          have hs' := hs t.root rfl hl
          rw [← hroot] at hs'
          exact hs'
      | cons s' around => exact hl.elim
  | cons group groups =>
      cases around with
      | nil => exact hl.elim
      | cons s' around =>
          obtain ⟨hspot, hrest⟩ := hl
          exact ⟨hs group.node rfl hspot, hrest.congr h h' hroot hframe⟩

end Tree

/-! ### The relation -/

/-- A builder with this tree, context and groups holds what an outline with these spots describes. -/
structure Builder.Holds (t : Tree) (context : NodeId) (groups : List OpenGroup) (s : Spot)
    (around : List Spot) : Prop where
  sound : t.Sound
  detached : ∀ top ∈ t.tops groups, t.parent top = none
  inside : ∀ top ∈ t.tops groups, top.index < t.size
  nodup : (t.tops groups).Nodup
  empty : ∀ group ∈ groups, t.node group.node = {}
  levels : t.Levels groups context s around

namespace Builder

open Shorthand.Tree

variable {t t' : Tree} {context : NodeId} {groups : List OpenGroup} {s : Spot} {around : List Spot}

theorem holds_start : Holds Tree.empty Tree.empty.root [] {} [] := by
  have htop : ∀ top ∈ Tree.empty.tops [], top = Tree.empty.root := by simp [tops]
  refine ⟨Tree.Sound.empty, ?_, ?_, by simp [tops], by simp, ⟨rfl, rfl⟩⟩
  · intro top ht
    obtain rfl := htop top ht
    rfl
  · intro top ht
    obtain rfl := htop top ht
    decide

theorem Holds.spot (h : Holds t context groups s around) :
    ∃ top rest, t.tops groups = top :: rest ∧ t.SpotAt top context s := by
  have hl := h.levels
  cases groups with
  | nil =>
      cases around with
      | nil => exact ⟨t.root, [], rfl, hl⟩
      | cons s' around => exact hl.elim
  | cons group groups =>
      cases around with
      | nil => exact hl.elim
      | cons s' around => exact ⟨group.node, _, rfl, hl.1⟩

/-- The context is a node of the tree. -/
theorem Holds.context_lt (h : Holds t context groups s around) : context.index < t.size := by
  obtain ⟨top, rest, htops, hspot⟩ := h.spot
  exact h.sound.lt_of_below (hspot.openNodes.below h.sound) (h.inside top (by simp [htops]))

/-- Tops have nothing in common. -/
theorem Holds.eq_of_below (h : Holds t context groups s around) {top top' x : NodeId}
    (ht : top ∈ t.tops groups) (ht' : top' ∈ t.tops groups) (hx : t.Below top x)
    (hx' : t.Below top' x) : top = top' :=
  eq_of_below_detached (h.detached top ht) (h.detached top' ht') hx hx'

theorem Holds.groupStart (h : Holds t context groups s around) (c : Cursor) :
    Holds (t.push {}) t.nextId ({ node := t.nextId, context := context, start := c } :: groups) {}
      (s :: around) := by
  have hparent : ∀ x, (t.push {}).parent x = t.parent x := fun x => by
    rw [Tree.parent, links_push, ← Tree.parent]
  constructor
  case sound => exact h.sound.push {}
  case detached =>
    intro top ht
    rcases List.mem_cons.1 ht with rfl | ht
    · exact (hparent _).trans (parent_of_size_le (Nat.le_refl t.size))
    · exact (hparent _).trans (h.detached top ht)
  case inside =>
    intro top ht
    rw [size_push]
    rcases List.mem_cons.1 ht with rfl | ht
    · exact Nat.lt_succ_self t.size
    · exact Nat.lt_succ_of_lt (h.inside top ht)
  case nodup =>
    refine List.nodup_cons.2 ⟨fun hm => ?_, h.nodup⟩
    exact absurd (h.inside _ hm) (Nat.lt_irrefl _)
  case empty =>
    intro group hg
    rcases List.mem_cons.1 hg with rfl | hg
    · simp [node_push]
    · have hmem : group.node ∈ t.tops groups := List.mem_append_left _ (List.mem_map_of_mem hg)
      rw [node_push_of_lt _ (h.inside _ hmem)]
      exact h.empty group hg
  case levels =>
    -- Nothing is in the new group yet, and all around it is as it was.
    refine ⟨⟨?_, rfl⟩, h.levels.congr h.sound (h.sound.push {}) rfl fun top ht x hx => ?_⟩
    · have hnil : t.children t.nextId = [] := h.sound.children_eq_nil (Nat.le_refl t.size)
      rw [h.sound.children_push, hnil]
      rfl
    · exact ⟨node_push_of_lt _ (h.sound.lt_of_below hx (h.inside top ht)), h.sound.children_push _ x⟩

/-- A change at the context leaves the other tops alone. -/
theorem Holds.untouched (h : Holds t context groups s around)
    (hframe : ∀ top ∈ t.tops groups, ∀ x, t.Below top x → x ≠ context →
      t'.node x = t.node x ∧ t'.children x = t.children x) :
    t.Untouched t' (t.tops groups).tail := by
  obtain ⟨top, rest, htops, hspot⟩ := h.spot
  have hnd := h.nodup
  rw [htops, List.nodup_cons] at hnd
  intro top' ht' x hx
  rw [htops, List.tail_cons] at ht'
  have hmem' : top' ∈ t.tops groups := by rw [htops]; exact List.mem_cons_of_mem _ ht'
  refine hframe top' hmem' x hx ?_
  rintro rfl
  have heq := h.eq_of_below (by simp [htops]) hmem' (hspot.openNodes.below h.sound) hx
  exact hnd.1 (heq ▸ ht')

theorem Holds.element (h : Holds t context groups s around) (node : Node) (joint : Joint) :
    Holds ((t.push node).append context t.nextId)
      (follow ((t.push node).append context t.nextId) context t.nextId joint) groups
      (s.addElement node joint) around := by
  have hnew := h.sound.newLast h.context_lt node
  generalize (t.push node).append context t.nextId = t' at hnew ⊢
  have hroot : t'.tops groups = t.tops groups := by rw [tops, tops, hnew.root]
  have hmem : ∀ group ∈ groups, group.node ∈ t.tops groups := fun group hg =>
    List.mem_append_left _ (List.mem_map_of_mem hg)
  refine ⟨hnew.sound, ?_, ?_, by rw [hroot]; exact h.nodup, ?_, ?_⟩
  · intro top' ht'
    rw [hroot] at ht'
    rw [hnew.parent top' (h.inside top' ht'), h.detached top' ht']
  · intro top' ht'
    rw [hroot] at ht'
    have := h.inside top' ht'
    rw [hnew.size]
    omega
  · intro group hg
    rw [hnew.node _ (h.inside _ (hmem group hg)), h.empty group hg]
  · refine h.levels.step h.sound hnew.sound hnew.root ?_ ?_
    · refine h.untouched fun top' ht' x hx hne => ?_
      have hlt := h.sound.lt_of_below hx (h.inside top' ht')
      exact ⟨hnew.node x hlt, hnew.other x hlt hne⟩
    · intro top' ht' hspot'
      have hmem' : top' ∈ t.tops groups := List.mem_of_mem_head? ht'
      exact hspot'.addElement h.sound hnew (h.detached top' hmem') (h.inside top' hmem') joint

/-- A group has been closed: `ids` stand last in the context that it was opened in, and apart from
that only the node of the group has changed. -/
structure Closed (t t' : Tree) (group : OpenGroup) (ids : List NodeId) : Prop where
  sound : t'.Sound
  root : t'.root = t.root
  size : t'.size = t.size
  children : t'.children group.context = t.children group.context ++ ids
  node : ∀ x, x ≠ group.node → t'.node x = t.node x
  other : ∀ x, x ≠ group.node → x ≠ group.context → t'.children x = t.children x
  detached : ∀ x, x ≠ group.node → t.parent x = none → t'.parent x = none

/-- A group without a repeat hands its children over. -/
theorem closed_handOver (h : t.Sound) {group : OpenGroup} (hcontext : group.context.index < t.size)
    (hbelow : ¬t.Below group.node group.context) :
    Closed t (close t group none) group (t.children group.node) ∧
      (t.children group.node).map (close t group none).branch = t.forestBelow group.node := by
  obtain ⟨hsound, hkids, hnil, hother⟩ := h.handOver hcontext hbelow
  rw [close, h.forestBelow_eq]
  refine ⟨⟨hsound, by simp, by simp, hkids, fun x _ => by simp, fun x hx hc => hother x hc hx, ?_⟩, ?_⟩
  · intro x _ hx
    have hnot : ∀ q, x ∉ t.children q := fun q hm => by
      rw [h.parent_eq_some_iff.2 hm] at hx
      exact absurd hx (by simp)
    refine Option.eq_none_iff_forall_ne_some.2 fun q hq => ?_
    have hmem := hsound.parent_eq_some_iff.1 hq
    by_cases hqc : q = group.context
    · subst hqc
      rw [hkids, List.mem_append] at hmem
      exact hmem.elim (hnot _) (hnot _)
    · by_cases hqn : q = group.node
      · subst hqn
        simp [hnil] at hmem
      · rw [hother q hqc hqn] at hmem
        exact hnot q hmem
  · refine List.map_congr_left fun c hc => h.branch_congr hsound fun x hx => ⟨by simp, ?_⟩
    have hcp := h.parent_eq_some_iff.2 hc
    refine hother x ?_ ?_
    · rintro rfl
      exact hbelow (Below.of_parent hcp hx)
    · rintro rfl
      exact h.acyclic.not_below_of_parent hcp hx

theorem children_close_some (h : t.Sound) {group : OpenGroup} (hcontext : group.context.index < t.size)
    (hnode : group.node.index < t.size) (hdetached : t.parent group.node = none) (r : Repeat)
    (q : NodeId) :
    (close t group (some r)).children q =
      if q = group.context then t.children group.context ++ [group.node] else t.children q := by
  have hs₁ := h.modifyNode group.node fun n => { n with repeats := some r }
  have hfree : ∀ q, (t.children q).erase group.node = t.children q := by
    intro q
    refine List.erase_of_not_mem fun hm => ?_
    rw [h.parent_eq_some_iff.2 hm] at hdetached
    exact absurd hdetached (by simp)
  rw [close, hs₁.children_append (by simpa using hnode) (by simpa using hcontext)]
  simp only [h.children_modifyNode, hfree]

/-- A group with a repeat goes into the context itself. -/
theorem closed_append (h : t.Sound) {group : OpenGroup} (hcontext : group.context.index < t.size)
    (hbelow : ¬t.Below group.node group.context) (hnode : group.node.index < t.size)
    (hdetached : t.parent group.node = none) (hempty : t.node group.node = {}) (r : Repeat) :
    Closed t (close t group (some r)) group [group.node] ∧
      [group.node].map (close t group (some r)).branch =
        [.mk { repeats := some r } (t.forestBelow group.node)] := by
  have hkids := children_close_some h hcontext hnode hdetached r
  rw [close] at hkids ⊢
  -- The repeat is set first, which leaves all places as they are.
  have hs₁ := h.modifyNode group.node fun n => { n with repeats := some r }
  have hkids₁ := h.children_modifyNode group.node fun n => { n with repeats := some r }
  have hbranch₁ := h.branch_modifyNode hnode fun n => { n with repeats := some r }
  have hparent₁ : ∀ x, (t.modifyNode group.node fun n => { n with repeats := some r }).parent x =
      t.parent x := fun x => by rw [Tree.parent, links_modifyNode, ← Tree.parent]
  have hnode₁ := fun x => node_modifyNode x (fun n => { n with repeats := some r }) hnode
  have hbelow₁ := mt (h.below_congr hs₁ (fun x _ => hkids₁ x) group.context).1 hbelow
  have hlt₁ : group.node.index <
      (t.modifyNode group.node fun n => { n with repeats := some r }).size := by simpa using hnode
  have hcontext₁ : group.context.index <
      (t.modifyNode group.node fun n => { n with repeats := some r }).size := by simpa using hcontext
  have hsize₁ : (t.modifyNode group.node fun n => { n with repeats := some r }).size = t.size := by simp
  have hroot₁ : (t.modifyNode group.node fun n => { n with repeats := some r }).root = t.root := by simp
  generalize (t.modifyNode group.node fun n => { n with repeats := some r }) = t₁ at *
  -- The group is appended then, and only the context gets other children.
  have hsound := hs₁.append hlt₁ hcontext₁ hbelow₁
  constructor
  · exact {
      sound := hsound
      root := by simpa using hroot₁
      size := by simpa using hsize₁
      children := by rw [hkids, if_pos rfl]
      node := fun x hx => by rw [node_append, hnode₁, if_neg hx]
      other := fun x _ hc => by rw [hkids, if_neg hc]
      detached := fun x hx hdet => by
        rw [hs₁.spells.parent_append hlt₁ hcontext₁, if_neg hx, hparent₁, hdet] }
  · have hmoved := hs₁.branch_moved hsound hbelow₁ (node_append t₁ _ _) fun q hq => by
      rw [hs₁.children_append hlt₁ hcontext₁, if_neg hq]
    rw [List.map_singleton, hmoved, hbranch₁, hempty, h.forestBelow_eq]

/-- Without its innermost group, a builder holds the spots around it. -/
theorem Holds.outer {group : OpenGroup} {s' : Spot}
    (h : Holds t context (group :: groups) s (s' :: around)) :
    Holds t group.context groups s' around :=
  ⟨h.sound, fun top ht => h.detached top (List.mem_cons_of_mem _ ht),
    fun top ht => h.inside top (List.mem_cons_of_mem _ ht), (List.nodup_cons.1 h.nodup).2,
    fun g hg => h.empty g (List.mem_cons_of_mem _ hg), h.levels.2⟩

theorem Holds.closed {group : OpenGroup} {s' : Spot} {ids : List NodeId}
    (h : Holds t context (group :: groups) s (s' :: around)) (hc : Closed t t' group ids) :
    Holds t' group.context groups (s'.add (ids.map t'.branch)) around := by
  have hout := h.outer
  have hroot : t'.tops groups = t.tops groups := by rw [tops, tops, hc.root]
  have hnot : group.node ∉ t.tops groups := (List.nodup_cons.1 h.nodup).1
  have hne : ∀ top ∈ t.tops groups, ∀ x, t.Below top x → x ≠ group.node := by
    rintro top ht x hx rfl
    have heq := h.eq_of_below (List.mem_cons_of_mem _ ht) (List.mem_cons_self) hx (Below.refl _)
    exact hnot (heq ▸ ht)
  have hself : ∀ top ∈ t.tops groups, top ≠ group.node := fun top ht => hne top ht top (Below.refl top)
  constructor
  case sound => exact hc.sound
  case detached =>
    intro top ht
    rw [hroot] at ht
    exact hc.detached top (hself top ht) (hout.detached top ht)
  case inside =>
    intro top ht
    rw [hroot] at ht
    rw [hc.size]
    exact hout.inside top ht
  case nodup =>
    rw [hroot]
    exact hout.nodup
  case empty =>
    intro g hg
    have hmem : g.node ∈ t.tops groups := List.mem_append_left _ (List.mem_map_of_mem hg)
    rw [hc.node _ (hself _ hmem), hout.empty g hg]
  case levels =>
    refine hout.levels.step h.sound hc.sound hc.root ?_ ?_
    · exact hout.untouched fun top ht x hx hxc =>
        ⟨hc.node x (hne top ht x hx), hc.other x (hne top ht x hx) hxc⟩
    · intro top ht hspot
      have hmem := hne top (List.mem_of_mem_head? ht)
      exact hspot.grown ⟨h.sound, hc.sound, hc.children, fun x hx => hc.node x (hmem x hx),
        fun x hx hxc => hc.other x (hmem x hx) hxc⟩

/-- The context that a group was opened in is not below the group. -/
theorem Holds.not_below_context {group : OpenGroup} {s' : Spot}
    (h : Holds t context (group :: groups) s (s' :: around)) : ¬t.Below group.node group.context := by
  obtain ⟨top, rest, htops, hspot⟩ := h.outer.spot
  have htop : top ∈ t.tops groups := by simp [htops]
  intro hb
  have heq := h.eq_of_below List.mem_cons_self (List.mem_cons_of_mem _ htop) hb
    (hspot.openNodes.below h.sound)
  exact (List.nodup_cons.1 h.nodup).1 (heq ▸ htop)

theorem Holds.groupEnd {group : OpenGroup} {s' : Spot}
    (h : Holds t context (group :: groups) s (s' :: around)) :
    Holds (close t group none) group.context groups (s'.add s.forest) around ∧
      ∀ r, Holds (close t group (some r)) group.context groups
        (s'.add [.mk { repeats := some r } s.forest]) around := by
  have hmem : group.node ∈ t.tops (group :: groups) := List.mem_cons_self
  have hcontext := h.outer.context_lt
  have hbelow := h.not_below_context
  rw [h.levels.1.forest_eq h.sound (h.detached _ hmem)]
  constructor
  · obtain ⟨hc, hmap⟩ := closed_handOver h.sound hcontext hbelow
    rw [← hmap]
    exact h.closed hc
  · intro r
    obtain ⟨hc, hmap⟩ := closed_append h.sound hcontext hbelow (h.inside _ hmem) (h.detached _ hmem)
      (h.empty group List.mem_cons_self) r
    rw [← hmap]
    exact h.closed hc

/-- **Adding an item** keeps the relation, and is refused by both or by none. -/
theorem Holds.add (h : Holds t context groups s around) (c : Cursor) (item : Item) :
    (∃ b o, Builder.add? ⟨t, context, groups⟩ c item = some b ∧ Outline.add? ⟨s, around⟩ item = some o ∧
      Holds b.tree b.context b.groups o.spot o.around) ∨
    Builder.add? ⟨t, context, groups⟩ c item = none ∧ Outline.add? ⟨s, around⟩ item = none := by
  cases item with
  | groupStart => exact Or.inl ⟨_, _, rfl, rfl, h.groupStart c⟩
  | element node joint => exact Or.inl ⟨_, _, rfl, rfl, h.element node joint⟩
  | groupEnd repeats =>
      have hl := h.levels
      cases groups with
      | nil =>
          cases around with
          | nil => exact Or.inr ⟨rfl, rfl⟩
          | cons s' around => exact hl.elim
      | cons group groups =>
          cases around with
          | nil => exact hl.elim
          | cons s' around =>
              cases repeats with
              | none => exact Or.inl ⟨_, _, rfl, rfl, h.groupEnd.1⟩
              | some r => exact Or.inl ⟨_, _, rfl, rfl, h.groupEnd.2 r⟩

/-- An abbreviation is complete for both or for none. -/
theorem Holds.finish (h : Holds t context groups s around) :
    Builder.finish ⟨t, context, groups⟩ = .ok t ∧ Outline.forest? ⟨s, around⟩ = some t.forest ∨
      (∃ fault, Builder.finish ⟨t, context, groups⟩ = .error fault) ∧
        Outline.forest? ⟨s, around⟩ = none := by
  have hl := h.levels
  cases groups with
  | nil =>
      cases around with
      | nil =>
          have hroot : t.parent t.root = none := h.detached _ (by simp [tops])
          have hforest := SpotAt.forest_eq h.sound hroot hl
          exact Or.inl ⟨rfl, by rw [Outline.forest?, hforest]; rfl⟩
      | cons s' around => exact hl.elim
  | cons group groups =>
      cases around with
      | nil => exact hl.elim
      | cons s' around =>
          refine Or.inr ⟨?_, rfl⟩
          obtain ⟨last, hlast⟩ : ∃ last, (group :: groups).getLast? = some last :=
            ⟨_, List.getLast?_eq_some_getLast (by simp)⟩
          exact ⟨last.start.fault .openGroup, by simp only [Builder.finish, hlast]⟩

end Builder

/-! ### Whole abbreviations -/

/-- From the cursor to the end, these are the items. -/
inductive Item.ReadsAs : Cursor → List Item → Prop where
  | done {c : Cursor} (h : c.atEnd) : ReadsAs c []
  | next {c c' : Cursor} {item : Item} {items : List Item} (h : ¬c.atEnd)
      (hread : Item.read c = .ok (item, c')) (rest : ReadsAs c' items) : ReadsAs c (item :: items)

namespace Builder

/-- A run that succeeds builds what the items mean. -/
theorem run_ok (b : Builder) (c : Cursor) {o : Outline} {t : Tree}
    (h : Holds b.tree b.context b.groups o.spot o.around) (hrun : b.run c = .ok t) :
    t.Sound ∧ ∃ items o', Item.ReadsAs c items ∧ items.foldlM Outline.add? o = some o' ∧
      o'.forest? = some t.forest := by
  fun_induction Builder.run b c generalizing o with
  | case1 b c hend =>
      rcases h.finish with ⟨hfin, hforest⟩ | ⟨⟨fault, hfin⟩, -⟩
      · obtain rfl : b.tree = t := by simpa [hfin] using hrun
        exact ⟨h.sound, [], o, .done hend, rfl, hforest⟩
      · simp [hfin] at hrun
  | case2 b c hend failure hread => simp at hrun
  | case3 b c hend item c' hread hadd => simp at hrun
  | case4 b c hend item c' hread b' hadd ih =>
      rcases h.add c item with ⟨b₁, o₁, hb, ho, hnext⟩ | ⟨hb, -⟩
      · obtain rfl : b' = b₁ := by simpa [hadd] using hb
        obtain ⟨hsound, items, o', hreads, hfold, hforest⟩ := ih hnext hrun
        refine ⟨hsound, item :: items, o', .next hend hread hreads, ?_, hforest⟩
        rw [List.foldlM_cons, ho]
        exact hfold
      · simp [hadd] at hb

/-- Items that mean a forest are built. -/
theorem run_of_readsAs {c : Cursor} {items : List Item} (hreads : Item.ReadsAs c items) {b : Builder}
    {o o' : Outline} {f : Forest} (h : Holds b.tree b.context b.groups o.spot o.around)
    (hfold : items.foldlM Outline.add? o = some o') (hforest : o'.forest? = some f) :
    ∃ t, b.run c = .ok t ∧ t.Sound ∧ t.forest = f := by
  induction hreads generalizing b o with
  | done hend =>
      obtain rfl : o = o' := by simpa using hfold
      rcases h.finish with ⟨hfin, hf⟩ | ⟨-, hf⟩
      · refine ⟨b.tree, ?_, h.sound, ?_⟩
        · rw [Builder.run, if_pos hend]
          exact hfin
        · exact Option.some.inj (hf.symm.trans hforest)
      · exact absurd (hf.symm.trans hforest) (by simp)
  | @next c c' item items hend hread rest ih =>
      rw [List.foldlM_cons] at hfold
      rcases h.add c item with ⟨b₁, o₁, hb, ho, hnext⟩ | ⟨-, ho⟩
      · rw [ho] at hfold
        obtain ⟨t, hrun, hsound, hf⟩ := ih hnext hfold
        refine ⟨t, ?_, hsound, hf⟩
        rw [Builder.run, if_neg hend]
        split
        · next failure herr => simp [hread] at herr
        · next item' c₁ hok =>
          obtain ⟨rfl, rfl⟩ : item' = item ∧ c₁ = c' := by simpa [hread, eq_comm] using hok
          have hb' : b.add? c item' = some b₁ := hb
          simp only [hb']
          exact hrun
      · rw [ho] at hfold
        exact absurd hfold (by simp)

end Builder

/-- **A parsed tree is sound, and its forest is what the items mean.** -/
theorem Tree.parse_ok {source : String} {t : Tree} (h : Tree.parse source = .ok t) :
    t.Sound ∧ ∃ items o, Item.ReadsAs (Cursor.ofList (Text.trim source.toList)) items ∧
      items.foldlM Outline.add? {} = some o ∧ o.forest? = some t.forest :=
  Builder.run_ok Builder.start _ (o := {}) Builder.holds_start h

/-- Items that mean a forest can be parsed. -/
theorem Tree.parse_of_readsAs {source : String} {items : List Item} {o : Outline} {f : Forest}
    (hreads : Item.ReadsAs (Cursor.ofList (Text.trim source.toList)) items)
    (hfold : items.foldlM Outline.add? {} = some o) (hforest : o.forest? = some f) :
    ∃ t, Tree.parse source = .ok t ∧ t.Sound ∧ t.forest = f :=
  Builder.run_of_readsAs hreads (b := Builder.start) (o := {}) Builder.holds_start hfold hforest

/-- What is computed from the tree of an abbreviation shows that there is one. -/
theorem Tree.exists_parse_of_map {α : Type} {source : String} {f : Tree → α} {a : α}
    (h : (Tree.parse source).toOption.map f = some a) : ∃ t, Tree.parse source = .ok t ∧ f t = a := by
  cases hparse : Tree.parse source with
  | error fault => simp [hparse, Except.toOption] at h
  | ok t => exact ⟨t, rfl, by simpa [hparse, Except.toOption] using h⟩

end Shorthand
