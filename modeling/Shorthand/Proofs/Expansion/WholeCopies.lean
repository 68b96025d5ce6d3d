import Shorthand.Proofs.Expansion.Outcome
import Shorthand.Proofs.Reader.WellFormed

/-!
# Copies stay whole

A limit cuts an expansion in the middle of its listing, but never in the middle of a copy: of each
copy of a repeated element or group, at any depth, either all nodes are there or none. So whatever
carries the number of a copy has all below it that it has without a limit.

Which copies a node of the expansion belongs to is read off the forest that is expanded
(`Forest.origins`). A run that is cut gives up the copy that it is in, with every copy around it,
and finishes nothing behind it. So it is enough to look at the **outermost** copies: what is kept
and what is cut have none of them in common (`Forest.Apart`), and only an element that is not
repeated can lose some of what is below it (`Forest.CutOf`).
-/

namespace Shorthand

open Expansion (Budget)

/-- A copy of a repeated node: the place of that node in pre-order, and the number of the copy. -/
structure CopyMark where
  place : Nat
  number : Nat
  deriving DecidableEq, Repr

/-- The origins of a node that is placed and of what is placed below it. -/
def Node.origins (node : Node) (below : List (List CopyMark)) : List (List CopyMark) :=
  if node.isGroup then below else [] :: below

mutual

/-- For each node that a branch unrolls to, in pre-order, the copies that it belongs to, outermost
first. The head of the branch is at the given place. -/
def Branch.origins (place : Nat) : Branch → List (List CopyMark)
  | .mk node children =>
    let placed := node.origins (Forest.origins (place + 1) children)
    match node.pendingRepeat with
    | some r => (List.range r.copies).flatMap fun k => placed.map (CopyMark.mk place (k + 1) :: ·)
    | none => placed

/-- For each node that a forest unrolls to, in pre-order, the copies that it belongs to, outermost
first. The first node of the forest is at the given place. -/
def Forest.origins (place : Nat) : List Branch → List (List CopyMark)
  | [] => []
  | b :: bs => b.origins place ++ Forest.origins (place + b.size) bs

end

/-! ### Subtrees -/

mutual

/-- The branches at all nodes of a branch, in pre-order. -/
def Branch.subtrees : Branch → List Branch
  | .mk node children => .mk node children :: Forest.subtrees children

/-- The branches at all nodes of a forest, in pre-order. -/
def Forest.subtrees : List Branch → List Branch
  | [] => []
  | b :: bs => b.subtrees ++ Forest.subtrees bs

end

namespace Forest

theorem subtrees_eq_flatMap (f : Forest) : subtrees f = f.flatMap Branch.subtrees := by
  induction f with
  | nil => simp [subtrees]
  | cons b f ih => simp [subtrees, ih]

/-- What is left of a forest behind a cut: in front of it all is there, and at the cut only what is
below an element that is not repeated may be cut in turn. -/
inductive CutOf : Forest → Forest → Prop where
  | nothing (full : Forest) : CutOf [] full
  | cons (b : Branch) {f full : Forest} (h : CutOf f full) : CutOf (b :: f) (b :: full)
  | inside {node : Node} {f full : Forest} (hnode : node.repeats = none) (h : CutOf f full)
      (rest : Forest) : CutOf [.mk node f] (.mk node full :: rest)

namespace CutOf

variable {f full : Forest}

theorem append_left (h : CutOf f full) (front : Forest) : CutOf (front ++ f) (front ++ full) := by
  induction front with
  | nil => exact h
  | cons b front ih => exact .cons b ih

theorem append_right (h : CutOf f full) (rest : Forest) : CutOf f (full ++ rest) := by
  induction h with
  | nothing => exact .nothing _
  | cons b _ ih => exact .cons b ih
  | inside hnode h _ _ => exact .inside hnode h _

/-- What carries a repeat has lost nothing. -/
theorem subtrees_eq (h : CutOf f full) {i : Nat} {b : Branch} (hb : (subtrees f)[i]? = some b)
    (hrepeat : b.node.repeats.isSome) : (subtrees full)[i]? = some b := by
  induction h generalizing i with
  | nothing => simp [subtrees] at hb
  | @cons first f full _ ih =>
      rw [subtrees] at hb ⊢
      by_cases hi : i < first.subtrees.length
      · rw [List.getElem?_append_left hi] at hb ⊢
        exact hb
      · rw [List.getElem?_append_right (Nat.not_lt.1 hi)] at hb ⊢
        exact ih hb
  | @inside node f full hnode _ rest ih =>
      cases i with
      | zero =>
          obtain rfl : Branch.mk node f = b := by simpa [subtrees, Branch.subtrees] using hb
          simp [Branch.node, hnode] at hrepeat
      | succ i =>
          have hb : (subtrees f)[i]? = some b := by simpa [subtrees, Branch.subtrees] using hb
          have hfull := ih hb
          obtain ⟨hi, -⟩ := List.getElem?_eq_some_iff.1 hfull
          rw [subtrees, Branch.subtrees, List.cons_append, List.getElem?_cons_succ,
            List.getElem?_append_left hi]
          exact hfull

end CutOf

/-! ### Origins -/

/-- The outermost copies on the two sides are different ones. -/
def Apart (front back : List (List CopyMark)) : Prop :=
  ∀ o ∈ front, ∀ o' ∈ back, ∀ mark, o.head? = some mark → o'.head? ≠ some mark

theorem apart_nil_left (back : List (List CopyMark)) : Apart [] back := by simp [Apart]

theorem Apart.append_left {front more back : List (List CopyMark)} (h : Apart front back)
    (hmore : Apart more back) : Apart (front ++ more) back := by
  intro o ho
  exact (List.mem_append.1 ho).elim (h o) (hmore o)

theorem Apart.append_right {front back more : List (List CopyMark)} (h : Apart front back)
    (hmore : Apart front more) : Apart front (back ++ more) := by
  intro o ho o' ho'
  exact (List.mem_append.1 ho').elim (h o ho o') (hmore o ho o')

/-- Outermost copies at places below a bound and from there on. -/
theorem apart_of_place {front back : List (List CopyMark)} {bound : Nat}
    (hfront : ∀ o ∈ front, ∀ mark, o.head? = some mark → mark.place < bound)
    (hback : ∀ o ∈ back, ∀ mark, o.head? = some mark → bound ≤ mark.place) : Apart front back := by
  intro o ho o' ho' mark hmark hmark'
  have hlt := hfront o ho mark hmark
  have hle := hback o' ho' mark hmark'
  omega

mutual

theorem place_branch_origins (place : Nat) : ∀ b : Branch, ∀ o ∈ b.origins place, ∀ mark,
    o.head? = some mark → place ≤ mark.place ∧ mark.place < place + b.size
  | .mk node children => by
      intro o ho mark hmark
      have hbelow := place_origins (place + 1) children
      rw [Branch.size]
      rw [Branch.origins] at ho
      cases hr : node.pendingRepeat with
      | some r =>
          simp only [hr, List.mem_flatMap, List.mem_map] at ho
          obtain ⟨k, -, o', -, rfl⟩ := ho
          obtain rfl : CopyMark.mk place (k + 1) = mark := by simpa using hmark
          simp only
          omega
      | none =>
          simp only [hr, Node.origins] at ho
          have ho' : o ∈ origins (place + 1) children := by
            split at ho
            · exact ho
            · rcases List.mem_cons.1 ho with rfl | ho
              · simp at hmark
              · exact ho
          have := hbelow o ho' mark hmark
          omega

/-- The outermost copies are copies of nodes of the forest. -/
theorem place_origins (place : Nat) : ∀ f : Forest, ∀ o ∈ origins place f, ∀ mark,
    o.head? = some mark → place ≤ mark.place ∧ mark.place < place + size f
  | [] => by simp [origins]
  | b :: bs => by
      intro o ho mark hmark
      rw [origins] at ho
      rw [size]
      rcases List.mem_append.1 ho with ho | ho
      · have := place_branch_origins place b o ho mark hmark
        omega
      · have := place_origins (place + b.size) bs o ho mark hmark
        omega

end

/-! ### Numbers -/

end Forest

/-- If the node carries the number of a copy, it belongs to a copy of that number. -/
def Node.Numbered (node : Node) (origin : List CopyMark) : Prop :=
  ∀ r, node.repeats = some r → ∃ mark ∈ origin, r.copy = some mark.number

/-- The repeat of the node, if it has one, is still without a number. -/
def Node.Unnumbered (node : Node) : Prop :=
  ∀ r, node.repeats = some r → r.copy = none

theorem Node.Unnumbered.repeats_eq_none {node : Node} (h : node.Unnumbered)
    (hpending : node.pendingRepeat = none) : node.repeats = none := by
  cases hr : node.repeats with
  | none => rfl
  | some r => simp [Node.pendingRepeat, hr, Repeat.isPending, h r hr] at hpending

namespace Forest

/-- To stamp a forest gives its topmost nodes another repeat. -/
theorem nodes_map_stamp (stamp : Repeat) (f : Forest) :
    List.Forall₂ (fun node' node => node' = node ∨ node'.repeats = some stamp)
      (nodes (f.map (Branch.stamp stamp))) (nodes f) := by
  induction f with
  | nil => simp
  | cons b f ih =>
      obtain ⟨node, children⟩ := b
      rw [List.map_cons, Branch.stamp, nodes_cons, nodes_cons]
      refine .cons (Or.inr rfl) (List.rel_append ?_ ih)
      exact List.forall₂_same.2 fun node _ => Or.inl rfl

/-- What is in a copy belongs to it. -/
theorem numbered_copy {node : Node} {r : Repeat} {inner : Forest} {os : List (List CopyMark)}
    (h : List.Forall₂ Node.Numbered (nodes inner) os) (mark : CopyMark) :
    List.Forall₂ Node.Numbered (nodes (copy node r inner mark.number))
      ((node.origins os).map (mark :: ·)) := by
  have hcons : ∀ node o, Node.Numbered node o → Node.Numbered node (mark :: o) := by
    intro node o ho r hr
    obtain ⟨mark', hmark', hnumber⟩ := ho r hr
    exact ⟨mark', List.mem_cons_of_mem _ hmark', hnumber⟩
  have hstamped : ∀ node o, node.repeats = some { count := r.count, copy := some mark.number } →
      Node.Numbered node (mark :: o) := by
    intro node o hnode r' hr'
    rw [hnode] at hr'
    cases hr'
    exact ⟨mark, List.mem_cons_self, rfl⟩
  rw [List.forall₂_map_right_iff]
  by_cases hg : node.isGroup
  · -- A group leaves its children, each of which belongs to the copy and carries its number.
    rw [copy, if_pos hg, Node.origins, if_pos hg]
    have hstamp := nodes_map_stamp { count := r.count, copy := some mark.number } inner
    generalize nodes (inner.map _) = stamped at hstamp ⊢
    generalize nodes inner = plain at hstamp h
    induction hstamp generalizing os with
    | nil =>
        cases h
        exact .nil
    | cons hnode _ ih =>
        cases h with
        | cons ho h =>
            refine .cons ?_ (ih h)
            rcases hnode with rfl | hnode
            · exact hcons _ _ ho
            · exact hstamped _ _ hnode
  · -- Any other node carries the number itself, for all that is below it.
    rw [copy, if_neg hg, Node.origins, if_neg hg, nodes_cons, nodes_nil, List.append_nil]
    exact .cons (hstamped _ _ rfl) (h.imp fun node o => hcons node o)

mutual

theorem numbered_branch (place : Nat) : ∀ b : Branch, Every Node.Unnumbered [b] →
    List.Forall₂ Node.Numbered (nodes b.expand) (b.origins place)
  | .mk node children => by
      intro hb
      obtain ⟨hnode, hchildren⟩ := hb.mk
      have hinner := numbered_expand (place + 1) children hchildren
      rw [Branch.expand, Branch.origins]
      cases hr : node.pendingRepeat with
      | some r =>
          simp only
          generalize List.range r.copies = ks
          induction ks with
          | nil => simp
          | cons k ks ih =>
              rw [List.flatMap_cons, List.flatMap_cons, nodes_append]
              exact List.rel_append (numbered_copy hinner ⟨place, k + 1⟩) ih
      | none =>
          show List.Forall₂ _ (nodes (if node.isGroup then _ else _)) (node.origins _)
          rw [Node.origins]
          split
          · exact hinner
          · rw [nodes_cons, nodes_nil, List.append_nil]
            refine .cons (fun r hrepeats => ?_) hinner
            simp [hnode.repeats_eq_none hr] at hrepeats

/-- Numbers are those of the copies that nodes belong to. -/
theorem numbered_expand (place : Nat) : ∀ f : Forest, Every Node.Unnumbered f →
    List.Forall₂ Node.Numbered (nodes (expand f)) (origins place f)
  | [], _ => by simp [expand, origins]
  | b :: bs, h => by
      obtain ⟨hb, hbs⟩ := h.cons
      rw [expand, origins, nodes_append]
      exact List.rel_append (numbered_branch place b hb) (numbered_expand (place + b.size) bs hbs)

end

/-! ### Kept copies -/

/-- What is kept of a forest: it is cut only inside of elements that are not repeated, and of the
listing of all nodes it is the front, in which no copy stands that goes on behind it. -/
structure KeepsWhole (kept full : Forest) (origins : List (List CopyMark)) : Prop where
  cutOf : CutOf kept full
  apart : ∃ front back, origins = front ++ back ∧ front.length = size kept ∧ Apart front back

namespace KeepsWhole

variable {kept full full' : Forest} {os os' : List (List CopyMark)}

theorem nothing (full : Forest) (os : List (List CopyMark)) : KeepsWhole [] full os :=
  ⟨.nothing full, [], os, rfl, by simp [size], apart_nil_left os⟩

/-- Nothing of what follows is kept. -/
theorem append_right (h : KeepsWhole kept full os) (hapart : Apart os os') :
    KeepsWhole kept (full ++ full') (os ++ os') := by
  obtain ⟨front, back, rfl, hlength, hback⟩ := h.apart
  refine ⟨h.cutOf.append_right full', front, back ++ os', by simp, hlength, hback.append_right ?_⟩
  exact fun o ho => hapart o (List.mem_append_left _ ho)

/-- All of what comes before is kept. -/
theorem append_left (h : KeepsWhole kept full os) (hlength : os'.length = size full')
    (hapart : Apart os' os) : KeepsWhole (full' ++ kept) (full' ++ full) (os' ++ os) := by
  obtain ⟨front, back, rfl, hfront, hback⟩ := h.apart
  refine ⟨h.cutOf.append_left full', os' ++ front, back, by simp, by simp [hlength, hfront],
    Apart.append_left (fun o ho o' ho' => hapart o ho o' ?_) hback⟩
  exact List.mem_append_right _ ho'

/-- An element that is not repeated belongs to no copy of its own. -/
theorem below (h : KeepsWhole kept full os) {node : Node} (hnode : node.repeats = none) :
    KeepsWhole [.mk node kept] [.mk node full] ([] :: os) := by
  obtain ⟨front, back, rfl, hfront, hback⟩ := h.apart
  refine ⟨.inside hnode h.cutOf [], [] :: front, back, rfl, by simp [size, Branch.size, hfront], ?_⟩
  have hhead : Apart [[]] back := by simp [Apart]
  exact hhead.append_left hback

end KeepsWhole

theorem length_of_numbered {f : Forest} {os : List (List CopyMark)}
    (h : List.Forall₂ Node.Numbered (nodes f) os) : os.length = size f := by
  rw [← h.length_eq, nodes, List.length_map, length_preorder]

/-- Within a limit, a run ends with all of what it unrolls to, or leaves nothing to what follows. -/
theorem Unrolls.cases {run : Budget → Forest × Budget} {full : Forest} {need : Nat}
    (h : Unrolls run full need) (n : Nat) :
    (∃ m, run (.ofLimit (some n)) = (full, .ofLimit (some m))) ∨
      (run (.ofLimit (some n))).2 = .spent := by
  by_cases hn : n < need
  · exact Or.inr (h.cut n hn)
  · exact Or.inl ⟨_, h.fits n (Nat.not_lt.1 hn)⟩

theorem copiesWithin_spent (node : Node) (r : Repeat) (inner : Budget → Forest × Budget)
    (left made : Nat) : (copiesWithin node r inner left made .spent).1 = [] := by
  cases left with
  | zero => rfl
  | succ left => rw [copiesWithin_of_isExhausted rfl]

/-- Nothing is left of a copy that was cut. -/
theorem copyWithin_of_spent {node : Node} {r : Repeat} {inner : Budget → Forest × Budget} {k : Nat}
    {b : Budget} (h : (copyWithin node r inner k b).2 = .spent) :
    (copyWithin node r inner k b).1 = [] := by
  unfold copyWithin at h ⊢
  split
  · rfl
  · next hb =>
    rw [if_neg hb] at h
    simp only at h
    simp only [h, Budget.truncated_spent, if_true]

/-- **Copies are made one after the other, and each is kept whole.** -/
theorem keepsWhole_copiesWithin {node : Node} {r : Repeat} {inner : Budget → Forest × Budget}
    {full : Forest} {need : Nat} (h : Unrolls inner full need) (place : Nat)
    {os : List (List CopyMark)} (hlength : os.length = size full) (left made n : Nat) :
    KeepsWhole (copiesWithin node r inner left made (.ofLimit (some n))).1
      ((List.range left).flatMap fun k => copy node r full (made + k + 1))
      ((List.range left).flatMap fun k =>
        (node.origins os).map (CopyMark.mk place (made + k + 1) :: ·)) := by
  induction left generalizing made n with
  | zero => exact .nothing _ _
  | succ left ih =>
      have hblock : ((node.origins os).map (CopyMark.mk place (made + 1) :: ·)).length =
          size (copy node r full (made + 1)) := by
        rw [List.length_map, Node.origins, size_copy, ← hlength]
        split <;> simp
      -- The copies differ in their numbers.
      have hapart : Apart ((node.origins os).map (CopyMark.mk place (made + 1) :: ·))
          ((List.range left).flatMap fun k =>
            (node.origins os).map (CopyMark.mk place (made + 1 + k + 1) :: ·)) := by
        intro o ho o' ho' mark hmark hmark'
        obtain ⟨_, -, rfl⟩ := List.mem_map.1 ho
        obtain ⟨k, -, hk⟩ := List.mem_flatMap.1 ho'
        obtain ⟨_, -, rfl⟩ := List.mem_map.1 hk
        simp only [List.head?_cons, Option.some.injEq] at hmark hmark'
        have hnumber := congrArg CopyMark.number (hmark.trans hmark'.symm)
        simp only at hnumber
        omega
      rw [flatMap_range_succ (copy node r full), flatMap_range_succ fun k =>
        (node.origins os).map (CopyMark.mk place k :: ·), copiesWithin]
      rcases (h.copyWithin node r (made + 1)).cases n with ⟨m, hfirst⟩ | hspent
      · simp only [hfirst]
        exact (ih (made + 1) m).append_left hblock hapart
      · simp only [hspent, copiesWithin_spent, copyWithin_of_spent hspent]
        exact .nothing _ _

mutual

theorem keepsWhole_branch (n place : Nat) : ∀ b : Branch, Every Node.Unnumbered [b] →
    KeepsWhole (b.expandWithin (.ofLimit (some n))).1 b.expand (b.origins place)
  | .mk node children => by
      intro hb
      obtain ⟨hnode, hchildren⟩ := hb.mk
      rw [Branch.expandWithin]
      split
      · exact .nothing _ _
      · rw [Branch.expand, Branch.origins]
        cases hr : node.pendingRepeat with
        | some r =>
            have hlength := length_of_numbered (numbered_expand (place + 1) children hchildren)
            simpa using
              keepsWhole_copiesWithin (unrolls_expandWithin children) place hlength r.copies 0 n
        | none =>
            simp only [Node.origins]
            split
            · exact keepsWhole_expandWithin n (place + 1) children hchildren
            · exact (keepsWhole_expandWithin (n - 1) (place + 1) children hchildren).below
                (hnode.repeats_eq_none hr)

/-- **Whatever the limit, copies are kept whole.** -/
theorem keepsWhole_expandWithin (n place : Nat) : ∀ f : Forest, Every Node.Unnumbered f →
    KeepsWhole (expandWithin f (.ofLimit (some n))).1 (expand f) (origins place f)
  | [], _ => .nothing _ _
  | b :: bs, h => by
      obtain ⟨hb, hbs⟩ := h.cons
      have hfirst := keepsWhole_branch n place b hb
      have hapart : Apart (b.origins place) (origins (place + b.size) bs) :=
        apart_of_place (fun o ho mark hmark => (place_branch_origins place b o ho mark hmark).2)
          fun o ho mark hmark => (place_origins _ bs o ho mark hmark).1
      rw [expandWithin, expand, origins]
      rcases (unrolls_branch b).cases n with ⟨m, hall⟩ | hspent
      · simp only [hall]
        exact (keepsWhole_expandWithin m _ bs hbs).append_left
          (length_of_numbered (numbered_branch place b hb)) hapart
      · simp only [hspent, expandWithin_spent, List.append_nil]
        exact hfirst.append_right hapart

end

/-- A copy that has a node among those that are kept has all of its nodes there. -/
theorem KeepsWhole.lt_of_isPrefix {kept full : Forest} {os : List (List CopyMark)}
    (h : KeepsWhole kept full os) {copies o o' : List CopyMark} (hne : copies ≠ []) {i j : Nat}
    (hi : os[i]? = some o) (hj : os[j]? = some o') (ho : copies <+: o) (ho' : copies <+: o')
    (hkept : i < size kept) : j < size kept := by
  obtain ⟨front, back, rfl, hlength, hapart⟩ := h.apart
  rw [← hlength] at hkept ⊢
  by_contra hnot
  rw [List.getElem?_append_left hkept] at hi
  rw [List.getElem?_append_right (Nat.not_lt.1 hnot)] at hj
  -- Copies that begin with the same ones have the same outermost copy.
  obtain ⟨mark, rest, rfl⟩ := List.exists_cons_of_ne_nil hne
  obtain ⟨more, rfl⟩ := ho
  obtain ⟨more', rfl⟩ := ho'
  exact hapart _ (List.mem_of_getElem? hi) _ (List.mem_of_getElem? hj) mark rfl rfl

end Forest

/-! ### Trees -/

theorem Tree.Sound.map_preorder_branch {t : Tree} (h : t.Sound) (id : NodeId) (depth : Nat) :
    (t.preorder depth id).map (fun entry => t.branch entry.1) = (t.branch id).subtrees := by
  refine h.induction (P := fun id => ∀ depth,
    (t.preorder depth id).map (fun entry => t.branch entry.1) = (t.branch id).subtrees) ?_ id depth
  intro id ih depth
  have hbelow : (t.branch id).subtrees =
      t.branch id :: (t.children id).flatMap fun c => (t.branch c).subtrees := by
    rw [h.branch_eq id, Branch.subtrees, Forest.subtrees_eq_flatMap, List.flatMap_map]
  rw [h.preorder_eq, List.map_cons, List.map_flatMap, hbelow]
  exact congrArg _ (List.flatMap_congr fun c hc => ih c hc (depth + 1))

theorem Tree.Sound.map_descendants_branch {t : Tree} (h : t.Sound) :
    (t.descendants t.root).map (fun entry => t.branch entry.1) = Forest.subtrees t.forest := by
  rw [h.descendants_eq, h.forest_eq, Forest.subtrees_eq_flatMap, List.map_flatMap, List.flatMap_map]
  exact List.flatMap_congr fun c _ => h.map_preorder_branch c 0

/-- A node of a tree that was cut has, if it carries a repeat, the same below it as the node at the
same index of the whole tree. -/
theorem Tree.Sound.exists_branch_eq {cut full : Tree} (hcut : cut.Sound) (hfull : full.Sound)
    (hforest : Forest.CutOf cut.forest full.forest) (hcontents : cut.contents <+: full.contents)
    {i : Nat} {id : NodeId} {depth : Nat} (hi : (cut.descendants cut.root)[i]? = some (id, depth))
    (hrepeat : (cut.node id).repeats.isSome) :
    ∃ id', (full.descendants full.root)[i]? = some (id', depth) ∧ cut.branch id = full.branch id' := by
  have hbranch : (Forest.subtrees cut.forest)[i]? = some (cut.branch id) := by
    rw [← hcut.map_descendants_branch, List.getElem?_map, hi]
    rfl
  have hwhole : (Forest.subtrees full.forest)[i]? = some (cut.branch id) := by
    refine hforest.subtrees_eq hbranch ?_
    rw [hcut.branch_eq]
    exact hrepeat
  rw [← hfull.map_descendants_branch, List.getElem?_map] at hwhole
  obtain ⟨⟨id', depth'⟩, hi', heq⟩ := Option.map_eq_some_iff.1 hwhole
  -- The depth is that of the same entry in the listing.
  have hentry : cut.contents[i]? = some (cut.node id, depth) := by
    rw [Tree.contents, List.getElem?_map, hi]
    rfl
  have hentry' : full.contents[i]? = some (full.node id', depth') := by
    rw [Tree.contents, List.getElem?_map, hi']
    rfl
  obtain ⟨more, hmore⟩ := hcontents
  rw [← hmore, List.getElem?_append_left (List.getElem?_eq_some_iff.1 hentry).1, hentry] at hentry'
  obtain ⟨-, rfl⟩ := Prod.mk.inj (Option.some.inj hentry')
  exact ⟨id', hi', heq.symm⟩

theorem Tree.unnumbered_of_parse {source : String} {t : Tree} (h : Tree.parse source = .ok t) :
    t.forest.Every Node.Unnumbered :=
  fun node hnode r hr => ((Tree.wellFormed_of_parse h node hnode).repeats r hr).pending

namespace Expansion

/-- **Copies survive whole or not at all.** What a limit leaves is the front of the listing of the
whole expansion, each node of which belongs to the copies of repeated nodes that `Forest.origins`
tells, and carries no other number than that of one of them. If one node of a copy is left, so are
all of them. Each node that carries a number has below it what the node at the same index has in the
whole expansion. -/
theorem unrollLimited_whole_copies {source : String} {t : Tree} (hparse : Tree.parse source = .ok t)
    {limit : Nat} (hpos : 1 ≤ limit) :
    let cut := (unrollLimited t limit).1
    let full := (unroll t).1
    let origins := Forest.origins 0 t.forest
    cut.contents <+: full.contents ∧
      List.Forall₂ (fun entry origin => entry.1.Numbered origin) full.contents origins ∧
      (∀ (copies o o' : List CopyMark) (i j : Nat), copies ≠ [] →
        origins[i]? = some o → origins[j]? = some o' → copies <+: o → copies <+: o' →
          i < cut.contents.length → j < cut.contents.length) ∧
      ∀ (i : Nat) id depth, (cut.descendants cut.root)[i]? = some (id, depth) →
        (cut.node id).repeats.isSome →
          ∃ id', (full.descendants full.root)[i]? = some (id', depth) ∧
            cut.branch id = full.branch id' := by
  intro cut full origins
  have h := (Tree.parse_ok hparse).1
  have hunnumbered := Tree.unnumbered_of_parse hparse
  have hkeeps := Forest.keepsWhole_expandWithin limit 0 t.forest hunnumbered
  have hlimited : unrollLimited t limit = unrollWithin (some limit) t := by
    rw [unrollLimited_eq, if_neg (by omega)]
  obtain ⟨hcut, -⟩ := yields_unrollWithin h (some limit)
  rw [← hlimited] at hcut
  have hfull : Yields t full (.ofLimit none) (Forest.expand t.forest, .ofLimit none) := by
    rw [← (Forest.unrolls_expandWithin t.forest).unbounded]
    exact (yields_unrollWithin h none).1
  have hcutForest : cut.forest = (Forest.expandWithin t.forest (.ofLimit (some limit))).1 := hcut.forest
  have hfullForest : full.forest = Forest.expand t.forest := hfull.forest
  have hcutContents : cut.contents = Forest.preorder 0 cut.forest := hcut.sound.contents_eq
  have hfront : cut.contents <+: full.contents := by
    rw [hcutContents, hcutForest, hfull.sound.contents_eq, hfullForest]
    exact (Forest.unrolls_expandWithin t.forest).prefix_full limit 0
  -- Both results are known as forests now, and the recursion tells which copies the limit keeps.
  rw [← hcutForest, ← hfullForest] at hkeeps
  refine ⟨hfront, ?_, ?_, ?_⟩
  · rw [hfull.sound.contents_eq, hfullForest]
    exact List.forall₂_map_left_iff.1 (Forest.numbered_expand 0 t.forest hunnumbered)
  · intro copies o o' i j hne hi hj ho ho' hlt
    rw [hcutContents, Forest.length_preorder] at hlt ⊢
    exact hkeeps.lt_of_isPrefix hne hi hj ho ho' hlt
  · intro i id depth hi hrepeat
    exact hcut.sound.exists_branch_eq hfull.sound hkeeps.cutOf hfront hi hrepeat

/-- Nine nodes have room for one copy of the outer group, of five nodes, and for part of the second
one, which is dropped with the copy of the inner group that was finished in it. -/
theorem unrollLimited_whole_copies_nested : ∃ t, Tree.parse "x>((a>b)*2+c)*3" = .ok t ∧ 1 ≤ 9 ∧
    let cut := (unrollLimited t 9).1
    let full := (unroll t).1
    cut.contents.length = 6 ∧ full.contents.length = 16 ∧
      ∃ id id', (cut.descendants cut.root)[3]? = some (id, 1) ∧
        (full.descendants full.root)[3]? = some (id', 1) ∧ cut.branch id = full.branch id' := by
  obtain ⟨t, hparse, hresult⟩ : ∃ t, Tree.parse "x>((a>b)*2+c)*3" = .ok t ∧
      ((unrollLimited t 9).1.contents.length, (unroll t).1.contents.length,
        ((unrollLimited t 9).1.descendants (unrollLimited t 9).1.root)[3]?.map fun entry =>
          (entry.2, ((unrollLimited t 9).1.node entry.1).repeats.isSome)) =
        (6, 16, some (1, true)) := by
    refine Tree.exists_parse_of_map ?_
    decide +kernel
  obtain ⟨hcut, hrest⟩ := Prod.mk.inj hresult
  obtain ⟨hfull, hentry⟩ := Prod.mk.inj hrest
  obtain ⟨⟨id, depth⟩, hid, hnumber⟩ := Option.map_eq_some_iff.1 hentry
  obtain ⟨rfl, hrepeat⟩ := Prod.mk.inj hnumber
  obtain ⟨-, -, -, hwhole⟩ := unrollLimited_whole_copies hparse (show 1 ≤ 9 by decide)
  obtain ⟨id', hid', hbranch⟩ := hwhole 3 id 1 hid hrepeat
  exact ⟨t, hparse, by decide, hcut, hfull, id, id', hid, hid', hbranch⟩

end Expansion

end Shorthand
