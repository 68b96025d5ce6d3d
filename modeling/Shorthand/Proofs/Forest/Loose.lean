import Shorthand.Proofs.Reader.Abbreviation

/-!
# Loose groups

A group without a repeat is written as parentheses around its children, and is gone when these are
read: its children stand in its place. The text of the forest stays the same only if the parentheses
would be written anyway, around the one child of the group (`Forest.isNeat`).

That it stays the same then is seen on the texts (`Forest.render_dissolve`). That it does not
otherwise is seen on the items: the first group end without a start cuts a sequence of items in only
one way (`Item.Matched.cut`), and there are never more items without the loose groups than with them
(`Forest.length_items_dissolve`).
-/

namespace Shorthand

mutual

/-- Are all loose groups below the head of the branch neat? -/
def Branch.isNeat : Branch → Bool
  | .mk _ children => Forest.isNeat children

/-- Is every loose group followed by a sibling, with a single child that needs parentheses there? -/
def Forest.isNeat : List Branch → Bool
  | [] => true
  | [b] => !b.node.isLoose && b.isNeat
  | b :: bs =>
    (!b.node.isLoose || match b.children with
      | [child] => child.needsParens
      | _ => false) && b.isNeat && Forest.isNeat bs

end

/-! ### Neat forests -/

namespace Forest

theorem isNeat_cons_cons (b b' : Branch) (bs : Forest) :
    isNeat (b :: b' :: bs) = true ↔
      (b.node.isLoose = true → ∃ child, b.children = [child] ∧ child.needsParens = true) ∧
        b.isNeat = true ∧ isNeat (b' :: bs) = true := by
  have honly : (match b.children with
      | [child] => child.needsParens
      | _ => false) = true ↔ ∃ child, b.children = [child] ∧ child.needsParens = true := by
    split
    · next child hchild => simp [hchild]
    · next hnot =>
      simp only [Bool.false_eq_true, false_iff]
      rintro ⟨child, hchild, -⟩
      exact hnot child hchild
  rw [isNeat, Bool.and_eq_true, Bool.and_eq_true, Bool.or_eq_true, honly, and_assoc]
  · cases b.node.isLoose <;> simp
  · simp

end Forest

/-- The branch without the loose groups below its head. -/
def Branch.pruned : Branch → Branch
  | .mk node children => .mk node (Forest.dissolve children)

namespace Branch

theorem isGroup_of_needsParens {b : Branch} (h : b.needsParens = true) : b.node.isGroup = false := by
  simp only [needsParens, Bool.and_eq_true, Bool.not_eq_true'] at h
  exact h.1

theorem isLoose_of_needsParens {b : Branch} (h : b.needsParens = true) : b.node.isLoose = false := by
  rw [Node.isLoose, isGroup_of_needsParens h, Bool.false_and]

theorem dissolve_of_not_loose {b : Branch} (h : b.node.isLoose = false) : b.dissolve = [b.pruned] := by
  obtain ⟨node, children⟩ := b
  have hnode : node.isLoose = false := h
  rw [dissolve, if_neg (by simp [hnode]), pruned]

theorem dissolve_of_loose {b : Branch} (h : b.node.isLoose = true) :
    b.dissolve = Forest.dissolve b.children := by
  obtain ⟨node, children⟩ := b
  have hnode : node.isLoose = true := h
  rw [dissolve, if_pos hnode, Branch.children]

/-- What holds something after its loose groups are gone held something before. -/
theorem needsParens_of_pruned {b : Branch} (h : b.pruned.needsParens = true) : b.needsParens = true := by
  obtain ⟨node, children⟩ := b
  cases children with
  | nil => simpa [pruned, Forest.dissolve] using h
  | cons child children =>
      have hgroup : node.isGroup = false := isGroup_of_needsParens h
      simp [needsParens, Branch.node, Branch.children, hgroup]

end Branch

namespace Forest

theorem branch_dissolve_ne_nil {b : Branch} {bs : Forest} (h : isNeat (b :: bs) = true) :
    b.dissolve ≠ [] := by
  cases hloose : b.node.isLoose with
  | false => simp [Branch.dissolve_of_not_loose hloose]
  | true =>
      cases bs with
      | nil => simp [isNeat, hloose] at h
      | cons b' bs =>
          obtain ⟨child, hchild, hparens⟩ := ((isNeat_cons_cons b b' bs).1 h).1 hloose
          have hkept := Branch.dissolve_of_not_loose (Branch.isLoose_of_needsParens hparens)
          simp [Branch.dissolve_of_loose hloose, hchild, dissolve, hkept]

/-- A neat forest does not vanish. -/
theorem dissolve_eq_nil {f : Forest} (hneat : isNeat f = true) (h : dissolve f = []) : f = [] := by
  cases f with
  | nil => rfl
  | cons b bs =>
      rw [dissolve, List.append_eq_nil_iff] at h
      exact absurd h.1 (branch_dissolve_ne_nil hneat)

theorem needsParens_pruned {b : Branch} (hneat : b.isNeat = true) :
    b.pruned.needsParens = b.needsParens := by
  obtain ⟨node, children⟩ := b
  have hempty : (dissolve children).isEmpty = children.isEmpty := by
    cases children with
    | nil => rfl
    | cons child children =>
        have hne : dissolve (child :: children) ≠ [] := fun hnil => by
          simpa using dissolve_eq_nil hneat hnil
        simp [hne]
  simp only [Branch.pruned, Branch.needsParens, Branch.node, Branch.children, hempty]

theorem render_pruned (stamps : Bool) {node : Node} {children : Forest} (hneat : isNeat children = true)
    (h : render stamps (dissolve children) = render stamps children) :
    (Branch.pruned (.mk node children)).render stamps = Branch.render stamps (.mk node children) := by
  have hempty : (dissolve children).isEmpty = children.isEmpty := by
    rw [Bool.eq_iff_iff, List.isEmpty_iff, List.isEmpty_iff]
    refine ⟨dissolve_eq_nil hneat, ?_⟩
    rintro rfl
    rfl
  rw [Branch.pruned, Branch.render, Branch.render, h, hempty]

/-- **A neat forest is written as it is without its loose groups.** -/
theorem render_dissolve (stamps : Bool) : ∀ f : Forest, isNeat f = true →
    render stamps (dissolve f) = render stamps f
  | [], _ => rfl
  | [.mk node children], h => by
      rw [isNeat, Bool.and_eq_true, Bool.not_eq_true'] at h
      have hneat : isNeat children = true := h.2
      rw [dissolve, Branch.dissolve_of_not_loose h.1, dissolve, List.append_nil, render, render]
      exact render_pruned stamps hneat (render_dissolve stamps children hneat)
  | .mk node children :: b' :: bs, h => by
      obtain ⟨honly, hb, hrest⟩ := (isNeat_cons_cons _ b' bs).1 h
      have hneat : isNeat children = true := hb
      have hchildren := render_dissolve stamps children hneat
      have htail := render_dissolve stamps (b' :: bs) hrest
      obtain ⟨d, ds, hds⟩ : ∃ d ds, dissolve (b' :: bs) = d :: ds := by
        refine List.exists_cons_of_ne_nil fun hnil => ?_
        simpa using dissolve_eq_nil hrest hnil
      rw [dissolve, hds, render_cons_cons, ← htail, hds]
      cases hloose : node.isLoose with
      | false =>
          rw [Branch.dissolve_of_not_loose (b := .mk node children) hloose, List.singleton_append,
            render_cons_cons, needsParens_pruned hb, render_pruned stamps hneat hchildren]
      | true =>
          -- The child of the group gets the parentheses that the group had.
          obtain ⟨child, hchild, hparens⟩ := honly hloose
          obtain rfl : children = [child] := hchild
          obtain ⟨hgroup, hnone⟩ : node.isGroup = true ∧ node.repeats = none := by
            simpa [Node.isLoose] using hloose
          rw [isNeat, Bool.and_eq_true] at hneat
          have hkept := Branch.dissolve_of_not_loose (Branch.isLoose_of_needsParens hparens)
          rw [dissolve, hkept, dissolve, List.append_nil, render, render] at hchildren
          rw [Branch.dissolve_of_loose (b := .mk node [child]) hloose, Branch.children, dissolve, hkept,
            dissolve, List.append_nil, List.singleton_append, render_cons_cons,
            needsParens_pruned hneat.2, hparens, hchildren]
          simp [Branch.needsParens, Branch.node, Branch.render, hgroup, hnone, render]

end Forest

/-! ### Items that match -/

/-- Items in which every group that starts also ends. -/
inductive Item.Matched : List Item → Prop where
  | nil : Matched []
  | element (node : Node) (joint : Joint) {items : List Item} (rest : Matched items) :
      Matched (.element node joint :: items)
  | group {inner items : List Item} (h : Matched inner) (repeats : Option Repeat)
      (rest : Matched items) : Matched (.groupStart :: (inner ++ .groupEnd repeats :: items))

namespace Item.Matched

variable {items more : List Item}

theorem append (h : Matched items) (hmore : Matched more) : Matched (items ++ more) := by
  induction h with
  | nil => exact hmore
  | element node joint _ ih => exact .element node joint ih
  | group hinner repeats _ _ ih =>
      rw [List.cons_append, List.append_assoc, List.cons_append]
      exact .group hinner repeats ih

/-- **The first group end without a start** cuts a sequence of items in only one way. -/
theorem cut (h : Matched items) {items' : List Item} (h' : Matched items') {r r' : Option Repeat}
    {more' : List Item} (heq : items ++ .groupEnd r :: more = items' ++ .groupEnd r' :: more') :
    items = items' ∧ r = r' ∧ more = more' := by
  induction h generalizing items' r r' more more' with
  | nil =>
      cases h' with
      | nil => simpa using heq
      | element => simp at heq
      | group => simp at heq
  | element node joint _ ih =>
      cases h' with
      | nil => simp at heq
      | element node' joint' hrest =>
          simp only [List.cons_append, List.cons.injEq, Item.element.injEq] at heq
          obtain ⟨hitems, hr, hmore⟩ := ih hrest heq.2
          exact ⟨by rw [heq.1.1, heq.1.2, hitems], hr, hmore⟩
      | group => simp at heq
  | @group inner items _ repeats _ ihinner ih =>
      cases h' with
      | nil => simp at heq
      | element => simp at heq
      | @group inner' items' hinner repeats' hrest =>
          simp only [List.cons_append, List.append_assoc, List.cons.injEq, true_and] at heq
          obtain ⟨rfl, rfl, hafter⟩ := ihinner hinner heq
          obtain ⟨rfl, hr, hmore⟩ := ih hrest hafter
          exact ⟨rfl, hr, hmore⟩

end Item.Matched

/-! ### Items of forests -/

/-- The items that a branch is written as when a sibling follows. -/
def Branch.wrapped (b : Branch) : List Item :=
  if b.needsParens then .groupStart :: b.items ++ [.groupEnd none] else b.items

namespace Forest

theorem items_append {g : Forest} (hg : g ≠ []) (f : Forest) :
    items (f ++ g) = f.flatMap Branch.wrapped ++ items g := by
  induction f with
  | nil => rfl
  | cons b f ih =>
      obtain ⟨b', bs, hrest⟩ : ∃ b' bs, f ++ g = b' :: bs :=
        List.exists_cons_of_ne_nil (by simp [hg])
      rw [List.cons_append, hrest, items_cons_cons, ← hrest, ih, List.flatMap_cons, List.append_assoc,
        Branch.wrapped]

mutual

theorem matched_branch_items : ∀ b : Branch, Item.Matched b.items
  | .mk node children => by
      have hchildren := matched_items children
      rw [Branch.items]
      split
      · exact .group hchildren node.repeats .nil
      · split
        · exact .element node .beside .nil
        · exact .element node .inside hchildren

theorem matched_items : ∀ f : Forest, Item.Matched (items f)
  | [] => .nil
  | [b] => by
      rw [items]
      exact matched_branch_items b
  | b :: b' :: bs => by
      rw [items_cons_cons]
      have hb := matched_branch_items b
      refine Item.Matched.append ?_ (matched_items (b' :: bs))
      split
      · exact .group hb none .nil
      · exact hb

end

theorem length_branch_items_pos (b : Branch) : 0 < b.items.length := by
  obtain ⟨node, children⟩ := b
  rw [Branch.items]
  split
  · simp
  · split <;> simp

theorem length_wrapped (b : Branch) :
    b.wrapped.length = b.items.length + if b.needsParens then 2 else 0 := by
  rw [Branch.wrapped]
  split
  · simp
  · rfl

theorem items_cons {f : Forest} (hf : f ≠ []) (b : Branch) : items (b :: f) = b.wrapped ++ items f := by
  have happend := items_append hf [b]
  simpa using happend

theorem length_items_pos {f : Forest} (h : f ≠ []) : 0 < (items f).length := by
  obtain ⟨b, bs, rfl⟩ := List.exists_cons_of_ne_nil h
  have hb := length_branch_items_pos b
  by_cases hbs : bs = []
  · simpa [hbs, items] using hb
  · rw [items_cons hbs, List.length_append, length_wrapped]
    omega

/-- Only the last branch of a forest can gain parentheses. -/
theorem length_flatMap_wrapped (f : Forest) :
    (f.flatMap Branch.wrapped).length ≤ (items f).length + 2 := by
  induction f with
  | nil => simp
  | cons b f ih =>
      rw [List.flatMap_cons, List.length_append, length_wrapped]
      by_cases hf : f = []
      · simp only [hf, items, List.flatMap_nil, List.length_nil]
        split <;> omega
      · rw [items_cons hf, List.length_append, length_wrapped]
        omega

section

variable (node : Node) {children : Forest}
  (h : (items (dissolve children)).length ≤ (items children).length)

include h

theorem length_items_pruned :
    (Branch.pruned (.mk node children)).items.length ≤ (Branch.mk node children).items.length := by
  rw [Branch.pruned, Branch.items, Branch.items]
  split
  · simpa using h
  · cases children with
    | nil => simp [dissolve]
    | cons child children =>
        split
        · simp
        · simpa using h

theorem length_wrapped_pruned :
    (Branch.pruned (.mk node children)).wrapped.length ≤ (Branch.mk node children).wrapped.length := by
  have hle := length_items_pruned node h
  rw [length_wrapped, length_wrapped]
  cases hpruned : (Branch.pruned (.mk node children)).needsParens with
  | false =>
      simp only [Bool.false_eq_true, if_false]
      omega
  | true =>
      rw [Branch.needsParens_of_pruned hpruned]
      simp only [if_true]
      omega

theorem length_items_of_loose (hloose : node.isLoose = true) :
    (items (dissolve children)).length + 2 ≤ (Branch.mk node children).items.length := by
  obtain ⟨hgroup, -⟩ : node.isGroup = true ∧ node.repeats = none := by
    simpa [Node.isLoose] using hloose
  rw [Branch.items, if_pos hgroup]
  simpa using h

/-- In place of a branch there are no more items, with or without a sibling behind it. -/
theorem length_branch_dissolve :
    (items (Branch.dissolve (.mk node children))).length ≤ (Branch.mk node children).items.length ∧
      ((Branch.dissolve (.mk node children)).flatMap Branch.wrapped).length ≤
        (Branch.mk node children).wrapped.length := by
  cases hloose : node.isLoose with
  | false =>
      rw [Branch.dissolve_of_not_loose (b := .mk node children) hloose]
      refine ⟨?_, ?_⟩
      · rw [items]
        exact length_items_pruned node h
      · simpa using length_wrapped_pruned node h
  | true =>
      have hlen := length_items_of_loose node h hloose
      have hflat := length_flatMap_wrapped (dissolve children)
      rw [Branch.dissolve_of_loose (b := .mk node children) hloose, Branch.children, length_wrapped]
      exact ⟨by omega, by omega⟩

end

/-- **Without the loose groups there are no more items** than with them. -/
theorem length_items_dissolve : ∀ f : Forest, (items (dissolve f)).length ≤ (items f).length
  | [] => Nat.le_refl _
  | .mk node children :: bs => by
      obtain ⟨hitems, hwrapped⟩ := length_branch_dissolve node (length_items_dissolve children)
      have hrest := length_items_dissolve bs
      rw [dissolve]
      by_cases hnil : dissolve bs = []
      · rw [hnil, List.append_nil]
        by_cases hbs : bs = []
        · simpa [hbs, items] using hitems
        · rw [items_cons hbs, List.length_append, length_wrapped]
          omega
      · have hbs : bs ≠ [] := by
          rintro rfl
          exact hnil rfl
        rw [items_append hnil, items_cons hbs, List.length_append, List.length_append]
        omega

/-! ### Only neat forests keep their items -/

/-- No branch of what is left is loose. -/
theorem isLoose_of_mem_dissolve {f : Forest} {b : Branch} (h : b ∈ dissolve f) :
    b.node.isLoose = false := by
  have hmem : b.node ∈ nodes (dissolve f) := by
    obtain ⟨before, after, hsplit⟩ := List.append_of_mem h
    obtain ⟨node, children⟩ := b
    simp [hsplit, Branch.node]
  rw [nodes_dissolve] at hmem
  simpa using (List.mem_filter.1 hmem).2

theorem wrapped_loose {node : Node} (h : node.isLoose = true) (children : Forest) :
    Branch.wrapped (.mk node children) = .groupStart :: (items children ++ [.groupEnd none]) := by
  obtain ⟨hgroup, hnone⟩ : node.isGroup = true ∧ node.repeats = none := by simpa [Node.isLoose] using h
  simp [Branch.wrapped, Branch.needsParens, Branch.node, Branch.items, hgroup, hnone]

/-- A branch that starts like a loose group does, and is none, is an element with children. -/
theorem wrapped_eq_group {b : Branch} (hloose : b.node.isLoose = false) {inner more more' : List Item}
    (hinner : Item.Matched inner)
    (h : b.wrapped ++ more = .groupStart :: (inner ++ .groupEnd none :: more')) :
    b.needsParens = true ∧ b.items = inner ∧ more = more' := by
  cases hparens : b.needsParens with
  | true =>
      rw [Branch.wrapped, if_pos hparens, List.cons_append, List.cons_append, List.append_assoc,
        List.singleton_append] at h
      obtain ⟨hitems, -, hmore⟩ := (matched_branch_items b).cut hinner (List.cons.inj h).2
      exact ⟨rfl, hitems, hmore⟩
  | false =>
      obtain ⟨node, children⟩ := b
      rw [Branch.wrapped, if_neg (by simp [hparens]), Branch.items] at h
      split at h
      · next hgroup =>
        -- A group has a repeat, since it is not loose.
        rw [List.cons_append, List.cons_append, List.append_assoc, List.singleton_append] at h
        obtain ⟨-, hnone, -⟩ := (matched_items children).cut hinner (List.cons.inj h).2
        have hnode : node.isLoose = false := hloose
        simp [Node.isLoose, hgroup, hnone] at hnode
      · split at h <;> simp at h

/-- What is left of a neat forest, if it is one branch that needs parentheses, is left of one such
branch. -/
theorem exists_of_dissolve_singleton {f : Forest} (hneat : isNeat f = true) {b : Branch}
    (h : dissolve f = [b]) (hparens : b.needsParens = true) :
    ∃ child, f = [child] ∧ child.needsParens = true := by
  rcases f with - | ⟨child, - | ⟨b', bs⟩⟩
  · simp [dissolve] at h
  · rw [isNeat, Bool.and_eq_true, Bool.not_eq_true'] at hneat
    obtain rfl : child.pruned = b := by
      simpa [dissolve, Branch.dissolve_of_not_loose hneat.1] using h
    exact ⟨child, rfl, Branch.needsParens_of_pruned hparens⟩
  · have hfirst := List.length_pos_iff.2 (branch_dissolve_ne_nil hneat)
    have hsecond := List.length_pos_iff.2
      (branch_dissolve_ne_nil ((isNeat_cons_cons child b' bs).1 hneat).2.2)
    have hlen := congrArg List.length h
    simp only [dissolve, List.length_append, List.length_singleton] at hlen
    omega

/-- Items of a branch that is not loose tell the items of its children. -/
theorem items_of_pruned {node : Node} {children : Forest}
    (h : (Branch.pruned (.mk node children)).items = (Branch.mk node children).items) :
    items (dissolve children) = items children := by
  rw [Branch.pruned, Branch.items, Branch.items] at h
  split at h
  · exact ((matched_items _).cut (matched_items _) (List.cons.inj h).2).1
  · cases children with
    | nil => rfl
    | cons child children =>
        split at h
        · simp at h
        · simpa using h

/-- The same where the branch is written in front of others, which are told apart too. -/
theorem items_of_wrapped_pruned {node : Node} {children : Forest} {more more' : List Item}
    (h : (Branch.pruned (.mk node children)).wrapped ++ more =
      Branch.wrapped (.mk node children) ++ more') :
    items (dissolve children) = items children ∧ more = more' := by
  cases hgroup : node.isGroup with
  | true =>
      have hwrapped : ∀ f : Forest, Branch.wrapped (.mk node f) =
          .groupStart :: (items f ++ [.groupEnd node.repeats]) := by
        intro f
        simp [Branch.wrapped, Branch.needsParens, Branch.node, Branch.items, hgroup]
      rw [Branch.pruned, hwrapped, hwrapped, List.cons_append, List.cons_append, List.append_assoc,
        List.append_assoc] at h
      -- The first parenthesis that closes nothing in front of it is that of the group.
      obtain ⟨hitems, -, hmore⟩ := (matched_items _).cut (matched_items _) (List.cons.inj h).2
      exact ⟨hitems, hmore⟩
  | false =>
      cases children with
      | nil => exact ⟨rfl, by simpa [Branch.pruned, dissolve] using h⟩
      | cons child children =>
          have hparens : ∀ f : Forest, f ≠ [] → Branch.wrapped (.mk node f) =
              .groupStart :: .element node .inside :: (items f ++ [.groupEnd none]) := by
            intro f hf
            simp [Branch.wrapped, Branch.needsParens, Branch.node, Branch.children, Branch.items, hgroup,
              hf]
          rw [Branch.pruned, hparens (child :: children) (by simp)] at h
          by_cases hnil : dissolve (child :: children) = []
          · simp [hnil, Branch.wrapped, Branch.needsParens, Branch.node, Branch.children, Branch.items,
              hgroup] at h
          · rw [hparens _ hnil] at h
            simp only [List.cons_append, List.append_assoc, List.cons.injEq, true_and] at h
            obtain ⟨hitems, -, hmore⟩ := (matched_items _).cut (matched_items _) h
            exact ⟨hitems, hmore⟩

/-- A loose group keeps its items only if they are the parentheses that its one child needs. -/
theorem items_of_loose {node : Node} {children more : Forest} {items' : List Item}
    (hloose : node.isLoose = true) (hmore : more ≠ []) (hle : (items more).length ≤ items'.length)
    (h : items (dissolve children ++ more) = Branch.wrapped (.mk node children) ++ items') :
    ∃ b, dissolve children = [b] ∧ b.needsParens = true ∧
      items (dissolve children) = items children ∧ items more = items' := by
  rw [items_append hmore, wrapped_loose hloose, List.cons_append, List.append_assoc,
    List.singleton_append] at h
  cases hrest : dissolve children with
  | nil =>
      have hlen := congrArg List.length h
      simp [hrest] at hlen
      omega
  | cons b bs =>
      have hb := isLoose_of_mem_dissolve (b := b) (f := children) (by simp [hrest])
      rw [hrest, List.flatMap_cons, List.append_assoc] at h
      obtain ⟨hparens, hitems, heq⟩ := wrapped_eq_group hb (matched_items children) h
      -- More branches than this one would be more items than the children have.
      have hbs : bs = [] := by
        refine Decidable.byContradiction fun hne => ?_
        have hlen := length_items_dissolve children
        rw [hrest, items_cons hne, List.length_append, length_wrapped, ← hitems, if_pos hparens] at hlen
        omega
      subst hbs
      exact ⟨b, rfl, hparens, by rw [items, hitems], by simpa using heq⟩

/-- **Only a neat forest has the same items without its loose groups.** -/
theorem isNeat_of_items : ∀ f : Forest, items (dissolve f) = items f → isNeat f = true
  | [], _ => rfl
  | [.mk node children], h => by
      rw [dissolve, dissolve, List.append_nil, items] at h
      cases hloose : node.isLoose with
      | true =>
          have hlen := length_items_of_loose node (length_items_dissolve children) hloose
          rw [Branch.dissolve_of_loose (b := .mk node children) hloose, Branch.children] at h
          rw [← h] at hlen
          omega
      | false =>
          rw [Branch.dissolve_of_not_loose (b := .mk node children) hloose, items] at h
          have hneat := isNeat_of_items children (items_of_pruned h)
          simp [isNeat, Branch.isNeat, Branch.node, hloose, hneat]
  | .mk node children :: b' :: bs, h => by
      have hchildren := length_branch_dissolve node (length_items_dissolve children)
      have hrest := length_items_dissolve (b' :: bs)
      rw [items_cons (by simp), dissolve] at h
      by_cases hnil : dissolve (b' :: bs) = []
      · -- Nothing is left of the siblings, so there are too few items.
        have hlen := congrArg List.length h
        have hpos : 0 < (items (b' :: bs)).length := length_items_pos (by simp)
        rw [hnil, List.append_nil, List.length_append, length_wrapped] at hlen
        omega
      · rw [isNeat_cons_cons]
        cases hloose : node.isLoose with
        | false =>
            rw [Branch.dissolve_of_not_loose (b := .mk node children) hloose, items_append hnil,
              List.flatMap_singleton] at h
            obtain ⟨hinner, hmore⟩ := items_of_wrapped_pruned h
            refine ⟨fun hyes => ?_, isNeat_of_items children hinner, isNeat_of_items (b' :: bs) hmore⟩
            exact absurd (hloose.symm.trans hyes) (by decide)
        | true =>
            rw [Branch.dissolve_of_loose (b := .mk node children) hloose, Branch.children] at h
            obtain ⟨b, hone, hparens, hinner, hmore⟩ := items_of_loose hloose hnil hrest h
            have hneat := isNeat_of_items children hinner
            exact ⟨fun _ => exists_of_dissolve_singleton hneat hone hparens, hneat,
              isNeat_of_items (b' :: bs) hmore⟩

end Forest

end Shorthand
