import Shorthand.Proofs.Forest.Loose
import Shorthand.Proofs.Node.Settled
import Shorthand.Proofs.Tree.Listing
import Shorthand.Proofs.Tree.RoundTrip

/-!
# Which abbreviations are stable

The abbreviation of a parsed tree can be read again if the tokens of every class that was written as
an expression balance. What is read is then written as the same text, unless

* a class in a literal is not settled: escapes made two of its tokens equal, and one of them is lost;
* a loose group is not neat: its parentheses are written the first time only.

The two are told apart by the spaces of a text, since parentheses hold none: a text with as many
spaces as before has lost no token (`Forest.shrinks_render`, `Forest.count_space_dissolve`).
-/

namespace Shorthand

/-! ### Tokens that are lost -/

mutual

theorem Branch.shrinks_render (stamps : Bool) : ∀ b : Branch, Forest.Every Node.WellFormed [b] →
    Text.Shrinks (Forest.Every Node.Settled [b]) (b.render stamps).toList (b.reread.render stamps).toList
  | .mk node children, h => by
      obtain ⟨hnode, hchildren⟩ := h.mk
      have hbelow := Forest.shrinks_render stamps children hchildren
      have hempty : (Forest.reread children).isEmpty = children.isEmpty := by
        cases children <;> simp [Forest.reread]
      rw [Branch.reread]
      by_cases hgroup : node.isGroup = true
      · have hsettled : node.Settled := by
          have hnone : node.attributes = [] := by simp_all [Node.isGroup]
          simp [Node.Settled, hnone]
        rw [Branch.toList_render_group hgroup,
          Branch.toList_render_group (by rw [Node.isGroup_reread, hgroup])]
        have hall := (hbelow.append_right (')' :: Node.repeatPart stamps node.repeats)).append_left ['(']
        exact hall.congr ⟨fun hall => Forest.every_mk.2 ⟨hsettled, hall⟩, fun hall => hall.mk.2⟩
      · have hgroup : node.isGroup = false := by simpa using hgroup
        have hgroup' : node.reread.isGroup = false := by rw [Node.isGroup_reread, hgroup]
        rw [Forest.render_element stamps hgroup, Forest.render_element stamps hgroup', hempty]
        cases hnil : children.isEmpty with
        | true =>
            obtain rfl : children = [] := by simpa using hnil
            refine (hnode.shrinks_write stamps).congr ?_
            simp [Forest.Every]
        | false =>
            simp only [Bool.false_eq_true, if_false, String.toList_append]
            exact (((hnode.shrinks_write stamps).append_right ">".toList).append hbelow).congr
              Forest.every_mk.symm

/-- **A forest is written again as it was** if its nodes are settled, and with fewer spaces if not. -/
theorem Forest.shrinks_render (stamps : Bool) : ∀ f : Forest, Forest.Every Node.WellFormed f →
    Text.Shrinks (Forest.Every Node.Settled f) (Forest.render stamps f).toList
      (Forest.render stamps (Forest.reread f)).toList
  | [], _ => (Text.Shrinks.refl _).congr (by simp [Forest.Every])
  | [b], h => by
      rw [Forest.reread, Forest.reread, Forest.render, Forest.render]
      exact Branch.shrinks_render stamps b h
  | b :: b' :: bs, h => by
      obtain ⟨hb, hbs⟩ := h.cons
      have hfirst := Branch.shrinks_render stamps b hb
      have hrest := Forest.shrinks_render stamps (b' :: bs) hbs
      rw [Forest.reread] at hrest
      rw [Forest.reread, Forest.reread, Forest.render_cons_cons, Forest.render_cons_cons,
        Branch.needsParens_reread]
      cases b.needsParens with
      | false =>
          simp only [Bool.false_eq_true, if_false, String.toList_append]
          exact ((hfirst.append_right "+".toList).append hrest).congr Forest.every_cons.symm
      | true =>
          simp only [if_true, String.toList_append]
          exact ((((hfirst.append_left "(".toList).append_right ")".toList).append_right
            "+".toList).append hrest).congr Forest.every_cons.symm

end

/-! ### Parentheses hold no spaces -/

/-- What is written of a node itself: the parentheses of a group are left out. -/
def Node.ownText (stamps : Bool) (n : Node) : List Char :=
  if n.isGroup then repeatPart stamps n.repeats else (n.write stamps).toList

mutual

theorem Branch.count_space_render (stamps : Bool) : ∀ b : Branch,
    (b.render stamps).toList.count ' ' = ((Forest.nodes [b]).flatMap (Node.ownText stamps)).count ' '
  | .mk node children => by
      have hbelow := Forest.count_space_render stamps children
      by_cases hgroup : node.isGroup = true
      · rw [Branch.toList_render_group hgroup]
        simp [Node.ownText, hgroup, hbelow, Nat.add_comm]
      · have hgroup : node.isGroup = false := by simpa using hgroup
        rw [Forest.render_element stamps hgroup]
        cases children with
        | nil => simp [Node.ownText, hgroup]
        | cons child children => simp [Node.ownText, hgroup, hbelow]

/-- **All spaces of a forest are those of its nodes.** -/
theorem Forest.count_space_render (stamps : Bool) : ∀ f : Forest,
    (Forest.render stamps f).toList.count ' ' =
      ((Forest.nodes f).flatMap (Node.ownText stamps)).count ' '
  | [] => by simp [Forest.render]
  | [b] => by
      rw [Forest.render]
      exact Branch.count_space_render stamps b
  | b :: b' :: bs => by
      have hfirst := Branch.count_space_render stamps b
      have hrest := Forest.count_space_render stamps (b' :: bs)
      have hnodes : Forest.nodes (b :: b' :: bs) = Forest.nodes [b] ++ Forest.nodes (b' :: bs) :=
        Forest.nodes_append [b] (b' :: bs)
      rw [Forest.render_cons_cons, hnodes, List.flatMap_append, List.count_append, ← hfirst, ← hrest]
      cases b.needsParens with
      | false => simp
      | true => simp

end

theorem Node.ownText_of_loose (stamps : Bool) {n : Node} (h : n.isLoose = true) :
    n.ownText stamps = [] := by
  obtain ⟨hgroup, hnone⟩ : n.isGroup = true ∧ n.repeats = none := by simpa [Node.isLoose] using h
  simp [Node.ownText, hgroup, hnone, Node.repeatPart]

/-- **Loose groups hold no spaces.** -/
theorem Forest.count_space_dissolve (stamps : Bool) (f : Forest) :
    (Forest.render stamps (Forest.dissolve f)).toList.count ' ' =
      (Forest.render stamps f).toList.count ' ' := by
  rw [Forest.count_space_render, Forest.count_space_render, Forest.nodes_dissolve]
  generalize Forest.nodes f = nodes
  induction nodes with
  | nil => rfl
  | cons node nodes ih =>
      cases hloose : node.isLoose with
      | true => simpa [hloose, Node.ownText_of_loose stamps hloose] using ih
      | false => simpa [hloose] using ih

/-! ### Texts and forests -/

theorem Forest.reread_eq_map (f : Forest) : Forest.reread f = f.map Branch.reread := by
  induction f with
  | nil => rfl
  | cons b f ih => rw [Forest.reread, ih, List.map_cons]

theorem Branch.isLoose_reread (b : Branch) : b.reread.node.isLoose = b.node.isLoose := by
  obtain ⟨node, children⟩ := b
  exact Node.isLoose_reread node

/-- An only child stays one. -/
theorem Branch.onlyChild_reread (b : Branch) :
    (∃ child, b.reread.children = [child] ∧ child.needsParens = true) ↔
      ∃ child, b.children = [child] ∧ child.needsParens = true := by
  obtain ⟨node, children⟩ := b
  rw [Branch.reread, Branch.children, Branch.children, Forest.reread_eq_map]
  constructor
  · rintro ⟨child, hchild, hparens⟩
    obtain ⟨child', hchild', rfl⟩ := List.map_eq_singleton_iff.1 hchild
    exact ⟨child', hchild', by rwa [Branch.needsParens_reread] at hparens⟩
  · rintro ⟨child, rfl, hparens⟩
    exact ⟨child.reread, rfl, by rwa [Branch.needsParens_reread]⟩

mutual

theorem Branch.isNeat_reread : ∀ b : Branch, b.reread.isNeat = b.isNeat
  | .mk node children => by
      rw [Branch.reread, Branch.isNeat, Branch.isNeat]
      exact Forest.isNeat_reread children

/-- Neatness does not depend on the attributes. -/
theorem Forest.isNeat_reread : ∀ f : Forest, Forest.isNeat (Forest.reread f) = Forest.isNeat f
  | [] => rfl
  | [b] => by
      rw [Forest.reread, Forest.reread, Forest.isNeat, Forest.isNeat, Branch.isLoose_reread,
        Branch.isNeat_reread b]
  | b :: b' :: bs => by
      have hrest := Forest.isNeat_reread (b' :: bs)
      rw [Forest.reread] at hrest
      rw [Forest.reread, Forest.reread, Bool.eq_iff_iff, Forest.isNeat_cons_cons,
        Forest.isNeat_cons_cons, Branch.isLoose_reread, Branch.onlyChild_reread, Branch.isNeat_reread b,
        hrest]

end

/-- The same text stands for the same items. -/
theorem Forest.items_of_render_eq {stamps : Bool} {f g : Forest} (hf : Forest.Every Node.Readable f)
    (hg : Forest.Every Node.Readable g) (h : Forest.render stamps f = Forest.render stamps g) :
    Forest.items (Forest.reread f) = Forest.items (Forest.reread g) := by
  rw [← (Forest.readsAs_ofList_render stamps hf).placed_eq,
    ← (Forest.readsAs_ofList_render stamps hg).placed_eq, h]

/-- **When the text stays the same.** -/
theorem Forest.render_reread_iff {f : Forest} (h : Forest.Every Node.Readable f) (stamps : Bool) :
    Forest.render stamps (Forest.dissolve (Forest.reread f)) = Forest.render stamps f ↔
      Forest.isNeat f = true ∧ Forest.Every Node.Settled f := by
  have hwell : Forest.Every Node.WellFormed f := fun node hnode => (h node hnode).1
  have hshrinks := Forest.shrinks_render stamps f hwell
  constructor
  · intro heq
    have hcount := Forest.count_space_dissolve stamps (Forest.reread f)
    rw [heq] at hcount
    have hsettled := hshrinks.of_count_eq hcount.symm
    refine ⟨?_, hsettled⟩
    have hsame : Forest.render stamps (Forest.reread f) = Forest.render stamps f :=
      String.toList_inj.1 (hshrinks.same hsettled)
    -- What was read reads back as itself, with and without its loose groups.
    have hread : Forest.Every Node.Readable (Forest.reread f) :=
      h.reread fun _ hnode => ⟨hnode.1.reread, hnode.2.reread⟩
    have hfixed : Forest.Every (fun node => node.reread = node) (Forest.reread f) := by
      intro node hnode
      rw [Forest.nodes_reread] at hnode
      obtain ⟨n, hn, rfl⟩ := List.mem_map.1 hnode
      exact (hwell n hn).reread_reread (hsettled n hn)
    have hitems := Forest.items_of_render_eq hread.dissolve hread (heq.trans hsame.symm)
    rw [Forest.reread_eq_self _ hfixed.dissolve, Forest.reread_eq_self _ hfixed] at hitems
    rw [← Forest.isNeat_reread]
    exact Forest.isNeat_of_items _ hitems
  · rintro ⟨hneat, hsettled⟩
    rw [← Forest.isNeat_reread] at hneat
    rw [Forest.render_dissolve stamps _ hneat]
    exact String.toList_inj.1 (hshrinks.same hsettled)

/-! ### Parsed trees -/

/-- **Which abbreviations are stable.** If the tokens of every class that was written as an expression
balance, the abbreviation of a parsed tree parses again. What it parses to has the same abbreviation
if and only if all loose groups are neat and all attributes are settled. -/
theorem Tree.write_parse_write_iff {source : String} {t : Tree} (h : Tree.parse source = .ok t)
    (hlegible : ∀ entry ∈ t.contents, ∀ a ∈ entry.1.attributes, a.Legible) (stamps : Bool) :
    ∃ t', Tree.parse (t.write stamps) = .ok t' ∧
      (t'.write stamps = t.write stamps ↔ Forest.isNeat t.forest = true ∧
        ∀ entry ∈ t.contents, ∀ a ∈ entry.1.attributes, a.Settled) := by
  obtain ⟨hsound, -⟩ := Tree.parse_ok h
  have hwell := Tree.wellFormed_of_parse h
  have hread : Forest.Every Node.Readable t.forest := by
    intro node hnode
    refine ⟨hwell node hnode, ?_⟩
    obtain ⟨entry, hentry, rfl⟩ := hsound.mem_contents_iff.1 hnode
    exact hlegible entry hentry
  have hsettled : Forest.Every Node.Settled t.forest ↔
      ∀ entry ∈ t.contents, ∀ a ∈ entry.1.attributes, a.Settled := by
    constructor
    · exact fun hall entry hentry => hall entry.1 (hsound.mem_contents_iff.2 ⟨entry, hentry, rfl⟩)
    · intro hall node hnode
      obtain ⟨entry, hentry, rfl⟩ := hsound.mem_contents_iff.1 hnode
      exact hall entry hentry
  obtain ⟨t', hparse, hsound', hforest⟩ := Forest.parse_render_dissolve hread stamps
  refine ⟨t', by rw [hsound.write_eq, hparse], ?_⟩
  rw [hsound.write_eq, hsound'.write_eq, hforest, Forest.render_reread_iff hread, hsettled]

/-- A loose group that is neat and a class that was an expression are stable. Two tokens of which the
first is escaped into the second are not. -/
theorem Tree.write_parse_write_merged :
    (∃ t t', Tree.parse "([]>a>b)+c[class=\x7bx y x\x7d]" = .ok t ∧
      Tree.parse (t.write false) = .ok t' ∧ t'.write false = t.write false) ∧
    ∃ t t', Tree.parse "a[class='x\" x\\\" \\'']" = .ok t ∧
      Tree.parse (t.write false) = .ok t' ∧ t'.write false ≠ t.write false := by
  constructor
  · obtain ⟨t, hparse, hcontents⟩ : ∃ t, Tree.parse "([]>a>b)+c[class=\x7bx y x\x7d]" = .ok t ∧
        (t.contents, Forest.isNeat t.forest) = ([({}, 0), ({ name := some "a" }, 1),
          ({ name := some "b" }, 2), ({ name := some "c", attributes :=
            [⟨some "class", some (.tokens ["x", "y"]), .expression false false⟩] }, 0)], true) :=
      Tree.exists_parse_of_map (by decide +kernel)
    obtain ⟨hcontents, hneat⟩ := Prod.mk.inj hcontents
    have hbalanced : Payload.Balanced "x y".toList :=
      .plain rfl (by decide) (.plain rfl (by decide) (.plain rfl (by decide) .nil))
    obtain ⟨t', hparse', hiff⟩ := Tree.write_parse_write_iff hparse (by
      rw [hcontents]
      simpa [Attribute.Legible, Attribute.valueText, Attribute.Value.render] using hbalanced) false
    refine ⟨t, t', hparse, hparse', hiff.2 ⟨hneat, ?_⟩⟩
    rw [hcontents]
    simp [Attribute.Settled]
  · obtain ⟨t, hparse, hcontents⟩ : ∃ t, Tree.parse "a[class='x\" x\\\" \\'']" = .ok t ∧
        t.contents = [({ name := some "a", attributes :=
          [⟨some "class", some (.tokens ["x\"", "x\\\"", "\\'"]), {}⟩] }, 0)] :=
      Tree.exists_parse_of_map (by decide +kernel)
    obtain ⟨t', hparse', hiff⟩ := Tree.write_parse_write_iff hparse (by
      rw [hcontents]
      simp [Attribute.Legible, Attribute.Options.isExpression]) false
    refine ⟨t, t', hparse, hparse', fun heq => ?_⟩
    have hsettled := (hiff.1 heq).2
    rw [hcontents] at hsettled
    have hnodup := hsettled _ List.mem_cons_self _ List.mem_cons_self rfl (by decide) (by decide) _ rfl
    exact absurd hnodup (by decide)

/-- An empty list makes a loose group that is not neat. -/
example : (Tree.parse "[]").toOption.map (Tree.write · false) = some "()" ∧
    (Tree.parse "()").toOption.map (Tree.write · false) = some "" := by
  decide +kernel

/-- The tokens of a class need not balance, though the expression that they come from does. -/
example : (Tree.parse "a[class=\x7b' '\x7d]").toOption.map (Tree.write · false) =
      some "a[class=\x7b'\x7d]" ∧ (Tree.parse "a[class=\x7b'\x7d]").toOption = none := by
  decide +kernel

end Shorthand
