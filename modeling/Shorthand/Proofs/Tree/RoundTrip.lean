import Shorthand.Proofs.Reader.Abbreviation
import Shorthand.Proofs.Tree.Printer

/-!
# Parsing undoes writing

The abbreviation of a parsed tree parses to a tree with the same contents, unless something of it
cannot be written so that it reads back:

* a group without a repeat hands its children over when it is read;
* the tokens of a class that was written as an expression are not what stood between its braces;
* a literal cannot hold both quotes, nor end in a backslash that protects nothing, without an escape.
-/

namespace Shorthand

/-- An abbreviation parses to the forest that its nodes read back as, without the loose groups. -/
theorem Forest.parse_render_dissolve {f : Forest} (h : Forest.Every Node.Readable f) (stamps : Bool) :
    ∃ t, Tree.parse (Forest.render stamps f) = .ok t ∧ t.Sound ∧
      t.forest = Forest.dissolve (Forest.reread f) := by
  have hwell : Forest.Every Node.WellFormed (Forest.reread f) := h.reread fun _ hnode => hnode.1.reread
  obtain ⟨o, hfold, hforest⟩ := Forest.foldlM_items_empty hwell
  have hsolid := Forest.solid_render stamps f fun node hnode => (h node hnode).1
  have hreads := Forest.readsAs_ofList_render stamps h
  rw [← hsolid.trim_eq] at hreads
  exact Tree.parse_of_readsAs hreads hfold hforest

/-- A class that was not written as an expression, and a value that a literal can hold unchanged. -/
structure Attribute.Retrievable (a : Attribute) : Prop where
  class_literal : a.name = some "class" → a.options.isExpression = false
  quotable : a.options.isExpression = false → ∀ v, a.valueText = some v → Literal.Quotable v.toList

/-- As a node has to be to read back as it is. -/
def Node.Retrievable (node : Node) : Prop :=
  node.WellFormed ∧ ∀ a ∈ node.attributes, a.short? = none → a.Retrievable

/-- As a node has to be to be kept: a group without a repeat is not. -/
def Node.Kept (node : Node) : Prop :=
  node.WellFormed ∧ (node.isGroup = true → node.repeats.isSome = true)

theorem Node.Retrievable.legible {node : Node} (h : node.Retrievable) : node.Legible := by
  intro a ha hname hexpression
  cases hshort : a.short? with
  | none =>
      rw [(h.2 a ha hshort).class_literal hname] at hexpression
      exact absurd hexpression (by decide)
  | some short =>
      rw [Attribute.options_of_short hshort] at hexpression
      exact absurd hexpression (by decide)

theorem Node.Retrievable.reread_eq {node : Node} (h : node.Retrievable) : node.reread = node := by
  refine Node.reread_eq_self fun a ha => ?_
  refine (h.1.attributes a ha).reread_eq fun hshort hplain value hvalue => ?_
  exact ((h.2 a ha hshort).quotable hplain value hvalue).kept_eq

theorem Node.Kept.isLoose_eq {node : Node} (h : node.Kept) : node.isLoose = false := by
  refine Bool.eq_false_iff.2 fun hloose => ?_
  rw [Node.isLoose, Bool.and_eq_true, Option.isNone_iff_eq_none] at hloose
  have hsome := h.2 hloose.1
  rw [hloose.2] at hsome
  exact absurd hsome (by decide)

/-- A forest whose nodes read back and are kept parses from its abbreviation. -/
theorem Forest.parse_render {f : Forest} (hread : Forest.Every Node.Retrievable f)
    (hkept : Forest.Every Node.Kept f) (stamps : Bool) :
    ∃ t, Tree.parse (Forest.render stamps f) = .ok t ∧ t.Sound ∧ t.forest = f := by
  obtain ⟨t, hparse, hsound, hforest⟩ := Forest.parse_render_dissolve
    (fun node hnode => ⟨(hread node hnode).1, (hread node hnode).legible⟩) stamps
  rw [Forest.reread_eq_self f fun node hnode => (hread node hnode).reread_eq,
    Forest.dissolve_eq_self f fun node hnode => (hkept node hnode).isLoose_eq] at hforest
  exact ⟨t, hparse, hsound, hforest⟩

theorem Tree.Sound.mem_contents_iff {t : Tree} (h : t.Sound) {node : Node} :
    node ∈ Forest.nodes t.forest ↔ ∃ entry ∈ t.contents, entry.1 = node := by
  rw [h.contents_eq, Forest.nodes, List.mem_map]

/-- **Parsing undoes writing** on parsed trees, if every group has a repeat, no class was written as
an expression, and every value that stands in a literal can be quoted. -/
theorem Tree.contents_parse_write {source : String} {t : Tree} (h : Tree.parse source = .ok t)
    (hgroup : ∀ entry ∈ t.contents, entry.1.isGroup = true → entry.1.repeats.isSome = true)
    (hclass : ∀ entry ∈ t.contents, ∀ a ∈ entry.1.attributes,
      a.name = some "class" → a.options.isExpression = false)
    (hquote : ∀ entry ∈ t.contents, ∀ a ∈ entry.1.attributes,
      a.options.isExpression = false → a.short? = none →
        ∀ value ∈ a.valueText, Literal.Quotable value.toList)
    (stamps : Bool) :
    ∃ t', Tree.parse (t.write stamps) = .ok t' ∧ t'.contents = t.contents := by
  obtain ⟨hsound, -⟩ := Tree.parse_ok h
  have hwell := Tree.wellFormed_of_parse h
  have hread : Forest.Every Node.Retrievable t.forest := by
    intro node hnode
    refine ⟨hwell node hnode, fun a ha hshort => ?_⟩
    obtain ⟨entry, hentry, rfl⟩ := hsound.mem_contents_iff.1 hnode
    exact ⟨hclass entry hentry a ha, fun hplain => hquote entry hentry a ha hplain hshort⟩
  have hkept : Forest.Every Node.Kept t.forest := by
    intro node hnode
    refine ⟨hwell node hnode, ?_⟩
    obtain ⟨entry, hentry, rfl⟩ := hsound.mem_contents_iff.1 hnode
    exact hgroup entry hentry
  obtain ⟨t', hparse, hsound', hforest⟩ := Forest.parse_render hread hkept stamps
  refine ⟨t', ?_, ?_⟩
  · rw [hsound.write_eq, hparse]
  · rw [hsound'.contents_eq, hforest, hsound.contents_eq]

/-- A repeated group, an entry that needs single quotes, an expression and a short form. -/
theorem Tree.contents_parse_write_quotes : ∃ t t',
    Tree.parse "(a[!t='\"' u=\x7b1\x7d]>b.x)*2+c/" = .ok t ∧ t.contents.length = 4 ∧
      Tree.parse (t.write true) = .ok t' ∧ t'.contents = t.contents := by
  obtain ⟨t, hparse, hcontents⟩ : ∃ t, Tree.parse "(a[!t='\"' u=\x7b1\x7d]>b.x)*2+c/" = .ok t ∧
      t.contents = [({ repeats := some { count := some 2 } }, 0),
        ({ name := some "a", attributes :=
          [⟨some "t", some (.text "\""), { implied := true }⟩,
            ⟨some "u", some (.text "1"), .expression false false⟩] }, 1),
        ({ name := some "b", attributes := [Attribute.named "class" "x"] }, 2),
        ({ name := some "c", selfClosing := true }, 0)] := by
    refine Tree.exists_parse_of_map ?_
    decide +kernel
  obtain ⟨t', hparse', hsame⟩ := Tree.contents_parse_write hparse (by rw [hcontents]; decide)
    (by rw [hcontents]; decide) (by rw [hcontents]; decide) true
  exact ⟨t, t', hparse, by rw [hcontents]; rfl, hparse', hsame⟩

end Shorthand
