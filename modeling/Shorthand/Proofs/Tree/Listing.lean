import Shorthand.Proofs.Reader.Locality

/-!
# Nodes are listed in the order in which they were read

The nodes of a parsed tree get their places in the order in which their starts are read, elements
and groups alike, and the pre-order below the root lists them in the same order; only groups that
are closed without a repeat are left out.

While an abbreviation is read the tree is in several parts, one below each top. **Put one behind the
other**, the outermost first, their listings are in the order of places (`Tree.parts`):

* a new node goes to the end, since every context is on the rightmost path of its part
  (`OpenAt.ids_grown`);
* a group that is closed is in the last part, and gives it to the end of the part before. With a
  repeat it stays in the listing, and without one it is the only node that goes
  (`Holds.parts_groupEnd`).
-/

namespace Shorthand

namespace Tree

variable {t t' : Tree}

/-! ### The listing of one part -/

/-- The nodes below a node and the node itself, in pre-order. -/
def ids (t : Tree) (id : NodeId) : List NodeId :=
  (t.preorder 0 id).map Prod.fst

theorem Sound.map_fst_preorder (h : t.Sound) (id : NodeId) (depth : Nat) :
    (t.preorder depth id).map Prod.fst = t.ids id := by
  refine h.induction (P := fun id => ∀ depth, (t.preorder depth id).map Prod.fst = t.ids id) ?_ id depth
  intro id ih depth
  rw [ids, h.preorder_eq, h.preorder_eq, List.map_cons, List.map_cons, List.map_flatMap,
    List.map_flatMap]
  refine congrArg _ (List.flatMap_congr fun c hc => ?_)
  rw [ih c hc, ih c hc]

theorem Sound.ids_eq (h : t.Sound) (id : NodeId) : t.ids id = id :: (t.children id).flatMap t.ids := by
  rw [ids, h.preorder_eq, List.map_cons, List.map_flatMap]
  exact congrArg _ (List.flatMap_congr fun c _ => h.map_fst_preorder c _)

theorem Sound.mem_ids (h : t.Sound) {id x : NodeId} : x ∈ t.ids id ↔ t.Below id x :=
  h.mem_preorder 0

theorem Sound.ids_leaf (h : t.Sound) {id : NodeId} (hid : t.children id = []) : t.ids id = [id] := by
  rw [h.ids_eq, hid]
  rfl

/-- A listing depends only on what is below. -/
theorem Sound.ids_congr (h : t.Sound) (h' : t'.Sound) {a : NodeId}
    (hframe : ∀ x, t.Below a x → t'.children x = t.children x) : t'.ids a = t.ids a := by
  refine h.induction (P := fun x => t.Below a x → t'.ids x = t.ids x) ?_ a (Below.refl a)
  intro x ih hx
  rw [h.ids_eq x, h'.ids_eq x, hframe x hx]
  refine congrArg _ (List.flatMap_congr fun c hc => ih c hc ?_)
  exact hx.child (h.parent_eq_some_iff.2 hc)

theorem Sound.descendants_ids (h : t.Sound) (id : NodeId) :
    id :: (t.descendants id).map Prod.fst = t.ids id := by
  rw [h.ids_eq, h.descendants_eq, List.map_flatMap]
  rfl

variable {top c : NodeId} {new : List NodeId}

/-- What does not hold the context is listed as before. -/
theorem Grown.ids_eq (hg : Grown t t' top c new) {x : NodeId} (hx : t.Below top x)
    (hc : ¬t.Below x c) : t'.ids x = t.ids x := by
  refine hg.sound.ids_congr hg.sound' fun y hy => hg.other y (Relation.ReflTransGen.trans hx hy) ?_
  rintro rfl
  exact hc hy

/-- What comes to the end of the listing of an open element comes to the end of the listing of the
top: each open element is the last child of the one above. -/
theorem OpenAt.ids_append (hg : Grown t t' top c new) {a : NodeId} {above : List (Node × List Branch)}
    (ho : t.OpenAt top a above) (hac : t.Below a c) {more : List NodeId}
    (ha : t'.ids a = t.ids a ++ more) : t'.ids top = t.ids top ++ more := by
  induction above generalizing a with
  | nil =>
      obtain rfl : a = top := ho
      exact ha
  | cons entry above ih =>
      obtain ⟨-, q, before, hq, -, hrest⟩ := ho
      have haq : t.parent a = some q := hg.sound.parent_eq_some_iff.2 (by simp [hq])
      have htop := OpenAt.below hg.sound hrest
      refine ih hrest (Below.of_parent haq hac) ?_
      have hqc : q ≠ c := by
        rintro rfl
        exact hg.sound.acyclic.not_below_of_parent haq hac
      have hbefore : before.flatMap t'.ids = before.flatMap t.ids := by
        refine List.flatMap_congr fun b hb => ?_
        have hbq : t.parent b = some q := hg.sound.parent_eq_some_iff.2 (by simp [hq, hb])
        refine hg.ids_eq (htop.child hbq) (hg.sound.disjoint haq hbq ?_ hac)
        rintro rfl
        exact (hg.sound.spells.not_mem_cut (r := []) hq).1 hb
      rw [hg.sound.ids_eq q, hg.sound'.ids_eq q, hg.other q htop hqc, hq, List.flatMap_append,
        List.flatMap_append, hbefore, List.flatMap_singleton, List.flatMap_singleton, ha]
      simp

/-- **New children of the context come to the end of the listing.** -/
theorem OpenAt.ids_grown (hg : Grown t t' top c new) {above : List (Node × List Branch)}
    (ho : t.OpenAt top c above) : t'.ids top = t.ids top ++ new.flatMap t'.ids := by
  have htop := OpenAt.below hg.sound ho
  have hold : (t.children c).flatMap t'.ids = (t.children c).flatMap t.ids := by
    refine List.flatMap_congr fun d hd => ?_
    have hdc := hg.sound.parent_eq_some_iff.2 hd
    exact hg.ids_eq (htop.child hdc) (hg.sound.acyclic.not_below_of_parent hdc)
  refine ho.ids_append hg (Below.refl c) ?_
  rw [hg.sound'.ids_eq c, hg.sound.ids_eq c, hg.children, List.flatMap_append, hold,
    List.cons_append]

/-! ### All parts -/

/-- The listings of all parts of a tree that is being built, the outermost part first. -/
def parts (t : Tree) (groups : List OpenGroup) : List NodeId :=
  (t.tops groups).reverse.flatMap t.ids

theorem parts_nil (t : Tree) : t.parts [] = t.ids t.root := by
  simp [parts, tops]

theorem parts_cons (t : Tree) (group : OpenGroup) (groups : List OpenGroup) :
    t.parts (group :: groups) = t.parts groups ++ t.ids group.node := by
  simp [parts, tops]

end Tree

namespace Builder

open Shorthand.Tree

variable {t t' : Tree} {context : NodeId} {groups : List OpenGroup} {s : Spot} {around : List Spot}

theorem Holds.mem_parts (h : Holds t context groups s around) {x : NodeId} (hx : x ∈ t.parts groups) :
    ∃ top ∈ t.tops groups, t.Below top x := by
  obtain ⟨top, htop, hx⟩ := List.mem_flatMap.1 hx
  exact ⟨top, List.mem_reverse.1 htop, h.sound.mem_ids.1 hx⟩

theorem Holds.lt_of_mem_parts (h : Holds t context groups s around) {x : NodeId}
    (hx : x ∈ t.parts groups) : x.index < t.size := by
  obtain ⟨top, htop, hb⟩ := h.mem_parts hx
  exact h.sound.lt_of_below hb (h.inside top htop)

/-- What is in the other parts is not the innermost group. -/
theorem Holds.ne_of_mem_parts {group : OpenGroup} {s' : Spot}
    (h : Holds t context (group :: groups) s (s' :: around)) {x : NodeId}
    (hx : x ∈ t.parts groups) : x ≠ group.node := by
  obtain ⟨top, htop, hb⟩ := h.outer.mem_parts hx
  rintro rfl
  have heq := h.eq_of_below (List.mem_cons_of_mem _ htop) List.mem_cons_self hb (Below.refl _)
  exact (List.nodup_cons.1 h.nodup).1 (heq ▸ htop)

/-- New children of the context come to the end of all parts. -/
theorem Holds.parts_grown (h : Holds t context groups s around) {new : List NodeId}
    (hroot : t'.root = t.root)
    (hgrown : ∀ top ∈ t.tops groups, t.Below top context → Grown t t' top context new)
    (hother : t.Untouched t' (t.tops groups).tail) :
    t'.parts groups = t.parts groups ++ new.flatMap t'.ids := by
  obtain ⟨top, rest, htops, hspot⟩ := h.spot
  have htops' : t'.tops groups = top :: rest := by rw [← htops, tops, tops, hroot]
  have hbelow := hspot.openNodes.below h.sound
  have hg := hgrown top (by simp [htops]) hbelow
  have hrest : rest.reverse.flatMap t'.ids = rest.reverse.flatMap t.ids := by
    refine List.flatMap_congr fun x hx => h.sound.ids_congr hg.sound' fun y hy => ?_
    rw [htops] at hother
    exact (hother x (List.mem_reverse.1 hx) y hy).2
  rw [parts, parts, htops, htops', List.reverse_cons, List.flatMap_append, List.flatMap_append, hrest,
    List.flatMap_singleton, List.flatMap_singleton, hspot.openNodes.ids_grown hg, List.append_assoc]

theorem Holds.parts_element (h : Holds t context groups s around) (node : Node) :
    ((t.push node).append context t.nextId).parts groups = t.parts groups ++ [t.nextId] := by
  have hnew := h.sound.newLast h.context_lt node
  generalize (t.push node).append context t.nextId = t' at hnew
  have hlt : ∀ top ∈ t.tops groups, ∀ x, t.Below top x → x.index < t.size := fun top ht x hx =>
    h.sound.lt_of_below hx (h.inside top ht)
  have hgrown : ∀ top ∈ t.tops groups, t.Below top context → Grown t t' top context [t.nextId] :=
    fun top ht _ => ⟨h.sound, hnew.sound, hnew.children, fun x hx => hnew.node x (hlt top ht x hx),
      fun x hx hne => hnew.other x (hlt top ht x hx) hne⟩
  have hother : t.Untouched t' (t.tops groups).tail := h.untouched fun top ht x hx hne =>
    ⟨hnew.node x (hlt top ht x hx), hnew.other x (hlt top ht x hx) hne⟩
  rw [h.parts_grown hnew.root hgrown hother, List.flatMap_singleton,
    hnew.sound.ids_leaf hnew.newChildren]

theorem Holds.parts_groupStart (h : Holds t context groups s around) (group : OpenGroup)
    (hgroup : group.node = t.nextId) :
    (t.push {}).parts (group :: groups) = t.parts groups ++ [t.nextId] := by
  have hsound := h.sound.push {}
  have hids : ∀ x, (t.push {}).ids x = t.ids x := fun x =>
    h.sound.ids_congr hsound fun y _ => h.sound.children_push {} y
  have hleaf : (t.push {}).children t.nextId = [] := by
    rw [h.sound.children_push]
    exact h.sound.children_eq_nil (Nat.le_refl t.size)
  have hold : (t.push {}).parts groups = t.parts groups :=
    List.flatMap_congr fun x _ => hids x
  rw [parts_cons, hold, hgroup, hsound.ids_leaf hleaf]

/-- The new children of the context that a closed group leaves come to the end of the parts. -/
theorem Holds.parts_closed {group : OpenGroup} {s' : Spot} {new : List NodeId}
    (h : Holds t context (group :: groups) s (s' :: around)) (hc : Closed t t' group new) :
    t'.parts groups = t.parts groups ++ new.flatMap t'.ids := by
  have hne : ∀ top ∈ t.tops groups, ∀ x, t.Below top x → x ≠ group.node := by
    intro top ht x hx
    refine h.ne_of_mem_parts (List.mem_flatMap.2 ⟨top, List.mem_reverse.2 ht, ?_⟩)
    exact h.sound.mem_ids.2 hx
  refine h.outer.parts_grown hc.root (fun top ht _ => ?_) ?_
  · exact ⟨h.sound, hc.sound, hc.children, fun x hx => hc.node x (hne top ht x hx),
      fun x hx hxc => hc.other x (hne top ht x hx) hxc⟩
  · exact h.outer.untouched fun top ht x hx hxc =>
      ⟨hc.node x (hne top ht x hx), hc.other x (hne top ht x hx) hxc⟩

/-- **Closing a group** leaves the parts as they are, except that a group without a repeat is gone. -/
theorem Holds.parts_groupEnd {group : OpenGroup} {s' : Spot}
    (h : Holds t context (group :: groups) s (s' :: around)) :
    ∃ below, t.parts (group :: groups) = t.parts groups ++ group.node :: below ∧
      group.node ∉ below ∧ (close t group none).parts groups = t.parts groups ++ below ∧
      ∀ r, (close t group (some r)).parts groups = t.parts groups ++ group.node :: below := by
  have hmem : group.node ∈ t.tops (group :: groups) := List.mem_cons_self
  have hbelow := h.not_below_context
  have hcontext := h.outer.context_lt
  -- What is below a child of the group is neither the group nor the context around it.
  have hout : ∀ {c x : NodeId}, c ∈ t.children group.node → t.Below c x →
      x ≠ group.node ∧ x ≠ group.context := by
    intro c x hc hx
    have hcp := h.sound.parent_eq_some_iff.2 hc
    constructor
    · rintro rfl
      exact h.sound.acyclic.not_below_of_parent hcp hx
    · rintro rfl
      exact hbelow (Below.of_parent hcp hx)
  refine ⟨(t.children group.node).flatMap t.ids, ?_, fun hm => ?_, ?_, fun r => ?_⟩
  · rw [parts_cons, h.sound.ids_eq group.node]
  · obtain ⟨c, hcg, hx⟩ := List.mem_flatMap.1 hm
    exact (hout hcg (h.sound.mem_ids.1 hx)).1 rfl
  · obtain ⟨hc, -⟩ := closed_handOver h.sound hcontext hbelow
    rw [h.parts_closed hc]
    refine congrArg _ (List.flatMap_congr fun c hcg => h.sound.ids_congr hc.sound fun x hx => ?_)
    exact hc.other x (hout hcg hx).1 (hout hcg hx).2
  · obtain ⟨hc, -⟩ := closed_append h.sound hcontext hbelow (h.inside _ hmem) (h.detached _ hmem)
      (h.empty group List.mem_cons_self) r
    have hkids := children_close_some h.sound hcontext (h.inside _ hmem) (h.detached _ hmem) r
    rw [h.parts_closed hc, List.flatMap_singleton, ← h.sound.ids_eq group.node]
    refine congrArg _ (h.sound.ids_congr hc.sound fun x hx => ?_)
    rw [hkids, if_neg]
    rintro rfl
    exact hbelow hx

/-- Closing a group changes the data of its node only. -/
theorem Holds.node_close {group : OpenGroup} {s' : Spot}
    (h : Holds t context (group :: groups) s (s' :: around)) (repeats : Option Repeat) {x : NodeId}
    (hx : x ≠ group.node) : (close t group repeats).node x = t.node x := by
  cases repeats with
  | none => exact (closed_handOver h.sound h.outer.context_lt h.not_below_context).1.node x hx
  | some r => rw [close, node_append, node_modifyNode_of_ne _ hx]

theorem Holds.node_close_some {group : OpenGroup} {s' : Spot}
    (h : Holds t context (group :: groups) s (s' :: around)) (r : Repeat) :
    (close t group (some r)).node group.node = { repeats := some r } := by
  rw [close, node_append, node_modifyNode _ _ (h.inside _ List.mem_cons_self), if_pos rfl,
    h.empty group List.mem_cons_self]

theorem size_close (t : Tree) (group : OpenGroup) (repeats : Option Repeat) :
    (close t group repeats).size = t.size := by
  cases repeats with
  | none => simp [close]
  | some r => simp [close]

end Builder

/-! ### What the items say about the listing -/

namespace Item

/-- The items from a cursor on, each with the place where it starts. -/
def placed (c : Cursor) : List (Nat × Item) :=
  if c.atEnd then []
  else
    match _h : Item.read c with
    | .error _ => []
    | .ok (item, c') => (c.pos, item) :: placed c'
termination_by c.rest.length
decreasing_by exact Item.length_rest_of_read _h

/-- The repeat behind the `)` of the group that is `depth` groups further out. -/
def repeatOf : (depth : Nat) → List Item → Option Repeat
  | _, [] => none
  | depth, .groupStart :: items => repeatOf (depth + 1) items
  | depth, .element _ _ :: items => repeatOf depth items
  | 0, .groupEnd repeats :: _ => repeats
  | depth + 1, .groupEnd _ :: items => repeatOf depth items

/-- The places where elements and groups start, each with the node that it leaves in the tree: a group
leaves one if a repeat stands behind its `)`. -/
def starts : List (Nat × Item) → List (Nat × Option Node)
  | [] => []
  | (pos, .element node _) :: items => (pos, some node) :: starts items
  | (pos, .groupStart) :: items =>
    (pos, (repeatOf 0 (items.map Prod.snd)).map fun r => { repeats := some r }) :: starts items
  | (_, .groupEnd _) :: items => starts items

/-- The nodes that are left in the tree, with their indices, when the starts are numbered from `first`
on. -/
def listed (first : Nat) (items : List (Nat × Item)) : List (Nat × Node) :=
  ((starts items).zipIdx first).filterMap fun entry => entry.1.2.map (entry.2, ·)

variable {items : List (Nat × Item)} {first pos : Nat}

theorem listed_element (node : Node) (joint : Joint) :
    listed first ((pos, .element node joint) :: items) = (first, node) :: listed (first + 1) items := by
  rw [listed, starts, List.zipIdx_cons, List.filterMap_cons]
  rfl

theorem listed_groupStart_none (h : repeatOf 0 (items.map Prod.snd) = none) :
    listed first ((pos, .groupStart) :: items) = listed (first + 1) items := by
  rw [listed, starts, h, List.zipIdx_cons, List.filterMap_cons]
  rfl

theorem listed_groupStart_some {r : Repeat} (h : repeatOf 0 (items.map Prod.snd) = some r) :
    listed first ((pos, .groupStart) :: items) =
      (first, { repeats := some r }) :: listed (first + 1) items := by
  rw [listed, starts, h, List.zipIdx_cons, List.filterMap_cons]
  rfl

theorem placed_next {c c' : Cursor} {item : Item} (hend : ¬c.atEnd)
    (hread : Item.read c = .ok (item, c')) : placed c = (c.pos, item) :: placed c' := by
  rw [placed, if_neg hend]
  split
  · next failure herr => simp [hread] at herr
  · next item' c₁ hok =>
    obtain ⟨rfl, rfl⟩ : item' = item ∧ c₁ = c' := by simpa [hread, eq_comm] using hok
    rfl

/-- All items are read where a run of the reader ends well. -/
theorem ReadsAs.placed_eq {c : Cursor} {items : List Item} (h : ReadsAs c items) :
    (placed c).map Prod.snd = items := by
  induction h with
  | done hend =>
      rw [placed, if_pos hend]
      rfl
  | @next c c' item items hend hread rest ih =>
      rw [placed_next hend hread, List.map_cons, ih]

theorem ReadsAs.readAllFrom_eq {c : Cursor} {items : List Item} (h : ReadsAs c items)
    (found : List Item) : readAllFrom found c = .ok (found.reverse ++ items) := by
  induction h generalizing found with
  | done hend =>
      rw [readAllFrom, if_pos hend, List.append_nil]
  | @next c c' item items hend hread rest ih =>
      rw [readAllFrom, if_neg hend]
      split
      · next failure herr => simp [hread] at herr
      · next item' c₁ hok =>
        obtain ⟨rfl, rfl⟩ : item' = item ∧ c₁ = c' := by simpa [hread, eq_comm] using hok
        rw [ih, List.reverse_cons, List.append_assoc, List.singleton_append]

/-- Every start is at the cursor or behind it, and each is behind the one before. -/
theorem placed_sorted (c : Cursor) :
    (∀ entry ∈ placed c, c.pos ≤ entry.1) ∧ ((placed c).map Prod.fst).Pairwise (· < ·) := by
  fun_induction placed c with
  | case1 c hend => simp
  | case2 c hend failure hread => simp
  | case3 c hend item c' hread ih =>
      obtain ⟨hfrom, hsorted⟩ := ih
      have hlt := pos_lt_of_read hread
      refine ⟨?_, ?_⟩
      · intro entry hentry
        rcases List.mem_cons.1 hentry with rfl | hentry
        · exact Nat.le_refl _
        · exact Nat.le_trans (Nat.le_of_lt hlt) (hfrom entry hentry)
      · rw [List.map_cons, List.pairwise_cons]
        refine ⟨fun pos hpos => ?_, hsorted⟩
        obtain ⟨entry, hentry, rfl⟩ := List.mem_map.1 hpos
        exact Nat.lt_of_lt_of_le hlt (hfrom entry hentry)

/-- The starts are some of the places of the items, in their order. -/
theorem starts_sublist (items : List (Nat × Item)) :
    ((starts items).map Prod.fst).Sublist (items.map Prod.fst) := by
  fun_induction starts items with
  | case1 => exact List.Sublist.refl _
  | case2 pos node joint items ih => exact ih.cons_cons pos
  | case3 pos items ih => exact ih.cons_cons pos
  | case4 pos repeats items ih => exact ih.cons pos

/-- The nodes that are left keep the order of their starts. -/
theorem listed_sorted (first : Nat) (items : List (Nat × Item)) :
    ((listed first items).map Prod.fst).Pairwise (· < ·) := by
  have hindex : ((starts items).zipIdx first).Pairwise fun a b => a.2 < b.2 := by
    rw [← List.pairwise_map, List.zipIdx_map_snd]
    exact List.pairwise_lt_range'
  rw [listed, List.pairwise_map, List.pairwise_filterMap]
  refine hindex.imp fun hlt x hx y hy => ?_
  obtain ⟨node, -, rfl⟩ := Option.map_eq_some_iff.1 hx
  obtain ⟨node', -, rfl⟩ := Option.map_eq_some_iff.1 hy
  exact hlt

theorem mem_listed {k : Nat} {node : Node} :
    (k, node) ∈ listed first items ↔
      ∃ i pos, k = first + i ∧ (starts items)[i]? = some (pos, some node) := by
  rw [listed, List.mem_filterMap]
  constructor
  · rintro ⟨⟨⟨pos, left⟩, j⟩, hmem, hleft⟩
    obtain ⟨hj, hget⟩ := List.mem_zipIdx_iff_le_and_getElem?_sub.1 hmem
    obtain ⟨node', rfl, heq⟩ := Option.map_eq_some_iff.1 hleft
    obtain ⟨rfl, rfl⟩ := Prod.mk.inj heq
    exact ⟨j - first, pos, by omega, hget⟩
  · rintro ⟨i, pos, rfl, hget⟩
    have hmem : ((pos, some node), first + i) ∈ (starts items).zipIdx first := by
      rw [List.mem_zipIdx_iff_le_and_getElem?_sub, Nat.add_sub_cancel_left]
      exact ⟨Nat.le_add_right first i, hget⟩
    exact ⟨_, hmem, rfl⟩

/-- Of the starts, those that leave a node are listed. -/
theorem exists_mem_listed_iff {i pos : Nat} {left : Option Node}
    (h : (starts items)[i]? = some (pos, left)) :
    (∃ node, (first + i, node) ∈ listed first items) ↔ left.isSome := by
  rw [Option.isSome_iff_exists]
  refine exists_congr fun node => ?_
  rw [mem_listed]
  constructor
  · rintro ⟨j, pos', hj, hget⟩
    obtain rfl : i = j := by omega
    exact (Prod.mk.inj (Option.some.inj (h.symm.trans hget))).2
  · rintro rfl
    exact ⟨i, pos, rfl, h⟩

end Item

/-! ### The listing of a run -/

namespace Builder

open Shorthand.Tree Item

variable {t t' : Tree} {context : NodeId} {groups : List OpenGroup} {s : Spot} {around : List Spot}

/-- The node that is left at `x` when the items have been added: an open group gets its repeat, or
goes when there is none. -/
def outcome (t : Tree) (groups : List OpenGroup) (items : List Item) (x : NodeId) : Option Node :=
  match groups.findIdx? (·.node = x) with
  | none => some (t.node x)
  | some depth => (repeatOf depth items).map fun r => { repeats := some r }

variable {items : List Item}

theorem outcome_self (group : OpenGroup) (groups : List OpenGroup) :
    outcome t (group :: groups) items group.node =
      (repeatOf 0 items).map fun r => { repeats := some r } := by
  rw [outcome, List.findIdx?_cons, decide_eq_true rfl]
  rfl

/-- An item that opens or closes a group makes one of the other groups one further out. -/
theorem outcome_cons {group : OpenGroup} {x : NodeId} (hx : x ≠ group.node) {items' : List Item}
    (hnode : t'.node x = t.node x)
    (hdepth : ∀ depth, repeatOf (depth + 1) items = repeatOf depth items') :
    outcome t (group :: groups) items x = outcome t' groups items' x := by
  rw [outcome, List.findIdx?_cons, decide_eq_false hx.symm, outcome, hnode]
  cases groups.findIdx? (·.node = x) with
  | none => rfl
  | some depth => simp [hdepth]

theorem outcome_congr {x : NodeId} {items' : List Item} (hnode : t'.node x = t.node x)
    (hdepth : ∀ depth, repeatOf depth items = repeatOf depth items') :
    outcome t groups items x = outcome t' groups items' x := by
  rw [outcome, outcome, hnode]
  cases groups.findIdx? (·.node = x) with
  | none => rfl
  | some depth => simp [hdepth]

/-- What is no open group stays as it is. -/
theorem outcome_of_forall_ne {x : NodeId} (hx : ∀ group ∈ groups, group.node ≠ x) :
    outcome t groups items x = some (t.node x) := by
  have hnone : groups.findIdx? (·.node = x) = none := by
    rw [List.findIdx?_eq_none_iff]
    exact fun group hg => decide_eq_false (hx group hg)
  rw [outcome, hnone]

/-- The nodes out of `ids` that are left when the items have been added, with their indices. -/
def settled (t : Tree) (groups : List OpenGroup) (items : List Item) (ids : List NodeId) :
    List (Nat × Node) :=
  ids.filterMap fun x => (outcome t groups items x).map (x.index, ·)

theorem settled_append (ids more : List NodeId) :
    settled t groups items (ids ++ more) = settled t groups items ids ++ settled t groups items more :=
  List.filterMap_append

theorem settled_cons_some {x : NodeId} {node : Node} (h : outcome t groups items x = some node)
    (ids : List NodeId) :
    settled t groups items (x :: ids) = (x.index, node) :: settled t groups items ids := by
  rw [settled, List.filterMap_cons, h]
  rfl

theorem settled_cons_none {x : NodeId} (h : outcome t groups items x = none) (ids : List NodeId) :
    settled t groups items (x :: ids) = settled t groups items ids := by
  rw [settled, List.filterMap_cons, h]
  rfl

theorem settled_congr {groups' : List OpenGroup} {items' : List Item} {ids : List NodeId}
    (h : ∀ x ∈ ids, outcome t groups items x = outcome t' groups' items' x) :
    settled t groups items ids = settled t' groups' items' ids :=
  List.filterMap_congr fun x hx => by rw [h x hx]

/-- **What the tree will list** in the end, told from the tree so far and the items to come. -/
def forecast (t : Tree) (groups : List OpenGroup) (items : List (Nat × Item)) : List (Nat × Node) :=
  settled t groups (items.map Prod.snd) (t.parts groups) ++ listed t.size items

variable (items : List (Nat × Item)) (pos : Nat)

theorem Holds.forecast_element (h : Holds t context groups s around) (node : Node) (joint : Joint) :
    forecast ((t.push node).append context t.nextId) groups items =
      forecast t groups ((pos, .element node joint) :: items) := by
  have hnew := h.sound.newLast h.context_lt node
  have hfresh : ∀ group ∈ groups, group.node ≠ t.nextId := by
    intro group hg heq
    have hlt := h.inside group.node (List.mem_append_left _ (List.mem_map_of_mem hg))
    rw [heq] at hlt
    exact Nat.lt_irrefl _ hlt
  have hold : ∀ x ∈ t.parts groups,
      outcome ((t.push node).append context t.nextId) groups (items.map Prod.snd) x =
        outcome t groups (.element node joint :: items.map Prod.snd) x := fun x hx =>
    outcome_congr (hnew.node x (h.lt_of_mem_parts hx)).symm fun _ => by rw [repeatOf]
  have hlast : outcome ((t.push node).append context t.nextId) groups (items.map Prod.snd) t.nextId =
      some node := by rw [outcome_of_forall_ne hfresh, hnew.newNode]
  rw [forecast, forecast, h.parts_element, settled_append, settled_congr hold,
    settled_cons_some hlast, hnew.size, List.map_cons, listed_element, List.append_assoc]
  rfl

theorem Holds.forecast_groupStart (h : Holds t context groups s around) (group : OpenGroup)
    (hgroup : group.node = t.nextId) :
    forecast (t.push {}) (group :: groups) items = forecast t groups ((pos, .groupStart) :: items) := by
  have hold : ∀ x ∈ t.parts groups,
      outcome (t.push {}) (group :: groups) (items.map Prod.snd) x =
        outcome t groups (.groupStart :: items.map Prod.snd) x := by
    intro x hx
    have hlt := h.lt_of_mem_parts hx
    refine outcome_cons ?_ (node_push_of_lt _ hlt).symm fun _ => by rw [repeatOf]
    rintro rfl
    rw [hgroup] at hlt
    exact Nat.lt_irrefl _ hlt
  have hlast : outcome (t.push {}) (group :: groups) (items.map Prod.snd) t.nextId = _ :=
    hgroup ▸ outcome_self group groups
  rw [forecast, forecast, h.parts_groupStart group hgroup, settled_append, settled_congr hold,
    size_push, List.map_cons, List.append_assoc]
  refine congrArg _ ?_
  cases hrepeat : repeatOf 0 (items.map Prod.snd) with
  | none =>
      rw [hrepeat] at hlast
      rw [settled_cons_none hlast, listed_groupStart_none hrepeat]
      rfl
  | some r =>
      rw [hrepeat] at hlast
      rw [settled_cons_some hlast, listed_groupStart_some hrepeat]
      rfl

/-- What becomes of the group was told by the items still to come; now it is known. -/
theorem Holds.forecast_groupEnd {group : OpenGroup} {s' : Spot}
    (h : Holds t context (group :: groups) s (s' :: around)) (repeats : Option Repeat) :
    forecast (close t group repeats) groups items =
      forecast t (group :: groups) ((pos, .groupEnd repeats) :: items) := by
  obtain ⟨below, hparts, hnot, hnone, hsome⟩ := h.parts_groupEnd
  have hother : ∀ x, x ≠ group.node →
      outcome (close t group repeats) groups (items.map Prod.snd) x =
        outcome t (group :: groups) (.groupEnd repeats :: items.map Prod.snd) x := fun x hx =>
    (outcome_cons hx (h.node_close repeats hx) fun _ => by rw [repeatOf]).symm
  have houter := settled_congr fun x hx => hother x (h.ne_of_mem_parts hx)
  have hbelow : ∀ x ∈ below, x ≠ group.node := by
    rintro x hx rfl
    exact hnot hx
  have hinner := settled_congr fun x hx => hother x (hbelow x hx)
  have hself : outcome t (group :: groups) (.groupEnd repeats :: items.map Prod.snd) group.node =
      repeats.map fun r => { repeats := some r } := outcome_self group groups
  have hmap : ((pos, .groupEnd repeats) :: items).map Prod.snd =
      .groupEnd repeats :: items.map Prod.snd := rfl
  have hlisted : listed t.size ((pos, .groupEnd repeats) :: items) = listed t.size items := rfl
  rw [forecast, forecast, hparts, size_close, hmap, hlisted]
  refine congrArg (· ++ _) ?_
  cases repeats with
  | none =>
      rw [hnone, settled_append, settled_append, settled_cons_none hself, houter, hinner]
  | some r =>
      have hfresh : ∀ g ∈ groups, g.node ≠ group.node := by
        intro g hg heq
        exact (List.nodup_cons.1 h.nodup).1 (heq ▸ List.mem_append_left _ (List.mem_map_of_mem hg))
      have hnode : outcome (close t group (some r)) groups (items.map Prod.snd) group.node =
          some { repeats := some r } := by rw [outcome_of_forall_ne hfresh, h.node_close_some]
      rw [hsome, settled_append, settled_append, settled_cons_some hself, settled_cons_some hnode,
        houter, hinner]

/-- **Adding an item** changes nothing of what the tree will list, nor how many nodes it will have. -/
theorem Holds.forecast_add (h : Holds t context groups s around) {c : Cursor} {item : Item}
    {b : Builder} (hadd : Builder.add? ⟨t, context, groups⟩ c item = some b) :
    forecast b.tree b.groups items = forecast t groups ((pos, item) :: items) ∧
      b.tree.size + (starts items).length = t.size + (starts ((pos, item) :: items)).length := by
  cases item with
  | groupStart =>
      obtain rfl := Option.some.inj hadd
      refine ⟨h.forecast_groupStart items pos _ rfl, ?_⟩
      rw [size_push, starts, List.length_cons]
      omega
  | element node joint =>
      obtain rfl := Option.some.inj hadd
      refine ⟨h.forecast_element items pos node joint, ?_⟩
      rw [(h.sound.newLast h.context_lt node).size, starts, List.length_cons]
      omega
  | groupEnd repeats =>
      cases groups with
      | nil => simp [Builder.add?] at hadd
      | cons group groups =>
          obtain rfl := Option.some.inj hadd
          cases around with
          | nil => exact h.levels.elim
          | cons s' around =>
              refine ⟨h.forecast_groupEnd items pos repeats, ?_⟩
              rw [size_close, starts]

/-- A finished run lists what was forecast. -/
theorem forecast_run (b : Builder) (c : Cursor) {o : Outline} {t : Tree}
    (h : Holds b.tree b.context b.groups o.spot o.around) (hrun : b.run c = .ok t) :
    (t.ids t.root).map (fun x => (x.index, t.node x)) = forecast b.tree b.groups (placed c) ∧
      t.size = b.tree.size + (starts (placed c)).length := by
  fun_induction Builder.run b c generalizing o with
  | case1 b c hend =>
      obtain ⟨tree, context, groups⟩ := b
      have hplaced : placed c = [] := by rw [placed, if_pos hend]
      rw [hplaced]
      cases groups with
      | nil =>
          obtain rfl : tree = t := by simpa [Builder.finish] using hrun
          refine ⟨?_, rfl⟩
          have hstay : ∀ x ∈ tree.ids tree.root,
              some (x.index, tree.node x) = (outcome tree [] [] x).map (x.index, ·) := fun x _ => rfl
          rw [forecast, parts_nil, settled, ← List.filterMap_eq_map]
          exact (List.filterMap_congr hstay).trans (List.append_nil _).symm
      | cons group groups =>
          simp [Builder.finish, List.getLast?_cons] at hrun
  | case2 b c hend failure hread => simp at hrun
  | case3 b c hend item c' hread hadd => simp at hrun
  | case4 b c hend item c' hread b' hadd ih =>
      rcases h.add c item with ⟨b₁, o₁, hb, -, hnext⟩ | ⟨hb, -⟩
      · obtain rfl : b' = b₁ := by simpa [hadd] using hb
        obtain ⟨hlist, hsize⟩ := ih hnext hrun
        obtain ⟨hstep, hcount⟩ := h.forecast_add (placed c') c.pos hb
        rw [placed_next hend hread]
        exact ⟨hlist.trans hstep, hsize.trans hcount⟩
      · simp [hadd] at hb

end Builder

/-! ### Parsed trees -/

/-- What is below the root of a parsed tree is what the items leave, and the root is at place 0. -/
theorem Tree.map_descendants_parse {source : String} {t : Tree} (h : Tree.parse source = .ok t) :
    (t.descendants t.root).map (fun entry => (entry.1.index, t.node entry.1)) =
        Item.listed 1 (Item.placed (Cursor.ofList (Text.trim source.toList))) ∧
      t.size = (Item.starts (Item.placed (Cursor.ofList (Text.trim source.toList)))).length + 1 := by
  obtain ⟨hsound, -⟩ := Tree.parse_ok h
  obtain ⟨hlist, hsize⟩ := Builder.forecast_run Builder.start _ (o := {}) Builder.holds_start h
  generalize Item.placed (Cursor.ofList (Text.trim source.toList)) = items at hlist hsize
  have hstart : Builder.forecast Builder.start.tree Builder.start.groups items =
      (0, {}) :: Item.listed 1 items := rfl
  rw [hstart, ← hsound.descendants_ids, List.map_cons, List.map_map] at hlist
  exact ⟨(List.cons.inj hlist).2, hsize.trans (Nat.add_comm _ _)⟩

/-- A node is below the root if and only if its index is listed. -/
theorem Tree.exists_mem_descendants_iff {t : Tree} {listed : List (Nat × Node)}
    (h : (t.descendants t.root).map (fun entry => (entry.1.index, t.node entry.1)) = listed)
    (id : NodeId) :
    (∃ depth, (id, depth) ∈ t.descendants t.root) ↔ ∃ node, (id.index, node) ∈ listed := by
  rw [← h]
  constructor
  · rintro ⟨depth, hdepth⟩
    exact ⟨t.node id, List.mem_map.2 ⟨(id, depth), hdepth, rfl⟩⟩
  · rintro ⟨node, hnode⟩
    obtain ⟨⟨⟨index⟩, depth⟩, hdepth, heq⟩ := List.mem_map.1 hnode
    obtain rfl : index = id.index := (Prod.mk.inj heq).1
    exact ⟨depth, hdepth⟩

/-- **A parsed tree lists what was read**, in the order in which it was read. Its forest is what the
items mean. Apart from the root, its places belong to the starts of elements and groups, one after the
other. The descendants of the root are those that leave a node, with its data, so they stand in the
order of their places, and only the groups that are closed without a repeat are missing. -/
theorem Tree.parse_listing {source : String} {t : Tree} (h : Tree.parse source = .ok t) :
    let c := Cursor.ofList (Text.trim source.toList)
    let items := Item.placed c
    let starts := Item.starts items
    Item.readAll c = .ok (items.map Prod.snd) ∧
      Forest.ofItems? (items.map Prod.snd) = some t.forest ∧
      (starts.map Prod.fst).Pairwise (· < ·) ∧
      t.size = starts.length + 1 ∧
      (t.descendants t.root).map (fun entry => (entry.1.index, t.node entry.1)) =
        Item.listed 1 items ∧
      ((t.descendants t.root).map fun entry => entry.1.index).Pairwise (· < ·) ∧
      ∀ i pos left, starts[i]? = some (pos, left) →
        ((∃ depth, (⟨i + 1⟩, depth) ∈ t.descendants t.root) ↔ left.isSome) := by
  intro c items starts
  obtain ⟨-, read, o, hreads, hfold, hforest⟩ := Tree.parse_ok h
  obtain ⟨hlisted, hsize⟩ := Tree.map_descendants_parse h
  have hread : items.map Prod.snd = read := hreads.placed_eq
  have hsorted := Item.listed_sorted 1 items
  rw [← hlisted, List.map_map] at hsorted
  refine ⟨?_, ?_, ?_, hsize, hlisted, hsorted, ?_⟩
  · rw [hread]
    exact hreads.readAllFrom_eq []
  · rw [hread, Forest.ofItems?, hfold]
    exact hforest
  · exact (Item.placed_sorted c).2.sublist (Item.starts_sublist items)
  · intro i pos left hi
    rw [Tree.exists_mem_descendants_iff hlisted, Nat.add_comm i 1]
    exact Item.exists_mem_listed_iff hi

/-- The outer group is listed in front of what it holds, and the two without a repeat, which start at
offsets 1 and 17, are not listed. -/
theorem Tree.parse_listing_groups : ∃ t, Tree.parse "((a>b^^c)+d*2)*3+(e)+f" = .ok t ∧
    t.size = 10 ∧ (t.descendants t.root).map (fun entry => entry.1.index) = [1, 3, 4, 5, 6, 8, 9] ∧
      (∃ depth, (⟨1⟩, depth) ∈ t.descendants t.root) ∧
      ¬∃ depth, (⟨2⟩, depth) ∈ t.descendants t.root := by
  obtain ⟨t, h, -⟩ : ∃ t, Tree.parse "((a>b^^c)+d*2)*3+(e)+f" = .ok t ∧ t.size = 10 :=
    Tree.exists_parse_of_map (by decide +kernel)
  obtain ⟨-, -, -, hsize, hlisted, -, hleft⟩ := Tree.parse_listing h
  have hindices := congrArg (List.map Prod.fst) hlisted
  rw [List.map_map] at hindices
  refine ⟨t, h, hsize.trans (by decide +kernel), hindices.trans (by decide +kernel), ?_, ?_⟩
  · exact (hleft 0 0 (some { repeats := some { count := some 3 } }) (by decide +kernel)).2 rfl
  · exact mt (hleft 1 1 none (by decide +kernel)).1 (by decide)

end Shorthand
