import Shorthand.Proofs.Forest.Basic
import Shorthand.Proofs.Node.WellFormed
import Shorthand.Proofs.Reader.Quoted

/-!
# What is read where a node was written

A node that was written need not read back as it was. A short form and an expression do. What stands
in a literal reads back as the literal keeps it (`Literal.kept`), and if it was a class, as the
distinct words of that. A group without a repeat hands its children over.
-/

namespace Shorthand

namespace Attribute

/-- What is read where the attribute was written. -/
def reread (a : Attribute) : Attribute :=
  if a.short?.isSome || a.options.isExpression then a
  else { make a.name (a.valueText.map Literal.kept) with options := a.options }

/-- Can the attribute be read where it was written? The tokens of a class need not balance, though the
expression that they come from does. -/
def Legible (a : Attribute) : Prop :=
  a.name = some "class" → a.options.isExpression = true →
    ∀ text ∈ a.valueText, Payload.Balanced text.toList

@[simp] theorem name_make (name value : Option String) : (make name value).name = name := by
  rw [make]
  split <;> rfl

@[simp] theorem name_reread (a : Attribute) : a.reread.name = a.name := by
  rw [reread]
  split
  · rfl
  · exact name_make _ _

@[simp] theorem options_reread (a : Attribute) : a.reread.options = a.options := by
  rw [reread]
  split <;> rfl

variable {a : Attribute}

/-- Whatever has a short form was not written in an unusual way. -/
theorem options_of_short {short : String} (h : a.short? = some short) : a.options = {} := by
  rw [short?] at h
  split at h
  · simp at h
  · next hoptions => simpa using hoptions

theorem reread_of_short {short : String} (h : a.short? = some short) : a.reread = a := by
  simp [reread, h]

theorem reread_of_expression (h : a.options.isExpression = true) : a.reread = a := by
  simp [reread, h]

/-- Everything but a literal reads back. -/
theorem reread_of_not_literal (h : ¬(a.short? = none ∧ a.options.isExpression = false)) :
    a.reread = a := by
  rw [reread, if_pos]
  cases hshort : a.short? with
  | some short => simp
  | none => simpa [hshort] using h

theorem reread_of_literal (hshort : a.short? = none) (hplain : a.options.isExpression = false) :
    a.reread = { make a.name (a.valueText.map Literal.kept) with options := a.options } := by
  simp [reread, hshort, hplain]

/-- A well-formed attribute is made from its name and its value as one text. -/
theorem WellFormed.make_eq (h : a.WellFormed) :
    { make a.name a.valueText with options := a.options } = a := by
  cases h with
  | unnamed value => rfl
  | @plain name hname hne value boolean implied =>
      cases value <;> simp [make, hne, valueText, Value.render]
  | expression hname hne hbalanced boolean implied => simp [make, hne, valueText, Value.render]
  | tokens hset hwritten => simp [make, valueText, Value.render, hset.tokensOf_intercalate]

/-- What a literal can hold unchanged reads back. -/
theorem WellFormed.reread_eq (h : a.WellFormed)
    (hkept : a.short? = none → a.options.isExpression = false →
      ∀ text ∈ a.valueText, Literal.kept text = text) : a.reread = a := by
  rw [reread]
  split
  · rfl
  · next hliteral =>
    obtain ⟨hshort, hplain⟩ : a.short? = none ∧ a.options.isExpression = false := by
      simpa using hliteral
    have hvalue : a.valueText.map Literal.kept = a.valueText := by
      rw [Option.map_congr (g := id) (hkept hshort hplain), Option.map_id]
      rfl
    rw [hvalue]
    exact h.make_eq

theorem WellFormed.reread (h : a.WellFormed) : a.reread.WellFormed := by
  rw [Attribute.reread]
  split
  · exact h
  · cases h with
    | unnamed value => exact .unnamed (Literal.kept value)
    | @plain name hname hne value boolean implied =>
        have hmake := wellFormed_make hname (value.map Literal.kept) boolean implied
        cases value with
        | none => simpa [make, hne, valueText] using hmake
        | some value => simpa [make, hne, valueText, Value.render] using hmake
    | @expression name value hname hne hbalanced boolean implied => simp_all
    | @tokens list hset options hwritten =>
        have htokens := WellFormed.tokens
          (tokenSet_tokensOf (Literal.kept (" ".intercalate list))) hwritten
        simpa [make, valueText, Value.render] using htokens

end Attribute

namespace Node

/-- What is read where the node was written. -/
def reread (n : Node) : Node :=
  { n with attributes := n.attributes.map Attribute.reread }

/-- Can the node be read where it was written? -/
def Legible (n : Node) : Prop :=
  ∀ a ∈ n.attributes, a.Legible

/-- Does the node only stand for parentheses around its children? -/
def isLoose (n : Node) : Bool :=
  n.isGroup && n.repeats.isNone

theorem repeats_reread (n : Node) : n.reread.repeats = n.repeats := rfl

@[simp] theorem isGroup_reread (n : Node) : n.reread.isGroup = n.isGroup := by
  simp [isGroup, reread]

@[simp] theorem isLoose_reread (n : Node) : n.reread.isLoose = n.isLoose := by
  rw [isLoose, isGroup_reread]
  rfl

theorem reread_eq_self {n : Node} (h : ∀ a ∈ n.attributes, a.reread = a) : n.reread = n := by
  have hmap : n.attributes.map Attribute.reread = n.attributes :=
    (List.map_congr_left h).trans (List.map_id _)
  rw [reread, hmap]

theorem WellFormed.reread {n : Node} (h : n.WellFormed) : n.reread.WellFormed where
  name := h.name
  text := h.text
  attributes := by
    intro a ha
    obtain ⟨b, hb, rfl⟩ := List.mem_map.1 ha
    exact (h.attributes b hb).reread
  distinct := by
    have hnames : n.reread.attributes.map Attribute.name = n.attributes.map Attribute.name := by
      simp [Node.reread, Function.comp_def]
    rw [hnames]
    exact h.distinct
  repeats := h.repeats
  closing := fun hclosing => by simpa using h.closing hclosing

end Node

/-! ### Forests -/

mutual

/-- What is read where the nodes of a branch were written. -/
def Branch.reread : Branch → Branch
  | .mk node children => .mk node.reread (Forest.reread children)

/-- What is read where the nodes of a forest were written. -/
def Forest.reread : List Branch → Forest
  | [] => []
  | b :: bs => b.reread :: Forest.reread bs

end

mutual

/-- The branch without its loose groups, which hand their children over. -/
def Branch.dissolve : Branch → Forest
  | .mk node children =>
    if node.isLoose then Forest.dissolve children else [.mk node (Forest.dissolve children)]

/-- The forest without its loose groups, which hand their children over. -/
def Forest.dissolve : List Branch → Forest
  | [] => []
  | b :: bs => b.dissolve ++ Forest.dissolve bs

end

namespace Forest

mutual

theorem nodes_branch_reread : ∀ b : Branch, nodes [b.reread] = (nodes [b]).map Node.reread
  | .mk node children => by
      rw [Branch.reread, nodes_cons, nodes_cons, nodes_reread children]
      simp

theorem nodes_reread : ∀ f : Forest, nodes (reread f) = (nodes f).map Node.reread
  | [] => by simp [reread]
  | b :: bs => by
      rw [reread, ← List.singleton_append, nodes_append, nodes_branch_reread b, nodes_reread bs,
        ← List.map_append, ← nodes_append, List.singleton_append]

end

mutual

theorem nodes_branch_dissolve : ∀ b : Branch,
    nodes b.dissolve = (nodes [b]).filter fun node => !node.isLoose
  | .mk node children => by
      rw [Branch.dissolve]
      split
      · next hloose => simp [nodes_dissolve children, hloose]
      · next hloose => simp [nodes_dissolve children, hloose]

/-- Only loose groups go. -/
theorem nodes_dissolve : ∀ f : Forest, nodes (dissolve f) = (nodes f).filter fun node => !node.isLoose
  | [] => by simp [dissolve]
  | b :: bs => by
      rw [dissolve, nodes_append, nodes_branch_dissolve b, nodes_dissolve bs, ← List.filter_append,
        ← nodes_append, List.singleton_append]

end

theorem Every.reread {P Q : Node → Prop} {f : Forest} (h : Every P f)
    (hPQ : ∀ node, P node → Q node.reread) : Every Q (reread f) := by
  intro node hnode
  rw [nodes_reread] at hnode
  obtain ⟨n, hn, rfl⟩ := List.mem_map.1 hnode
  exact hPQ n (h n hn)

theorem Every.dissolve {P : Node → Prop} {f : Forest} (h : Every P f) : Every P (dissolve f) := by
  intro node hnode
  rw [nodes_dissolve] at hnode
  exact h node (List.mem_filter.1 hnode).1

mutual

theorem branch_reread_eq_self : ∀ b : Branch, Every (fun node => node.reread = node) [b] →
    b.reread = b
  | .mk node children, h => by
      obtain ⟨hnode, hchildren⟩ := h.mk
      rw [Branch.reread, hnode, reread_eq_self children hchildren]

theorem reread_eq_self : ∀ f : Forest, Every (fun node => node.reread = node) f → reread f = f
  | [], _ => rfl
  | b :: bs, h => by
      obtain ⟨hb, hbs⟩ := h.cons
      rw [reread, branch_reread_eq_self b hb, reread_eq_self bs hbs]

end

mutual

theorem branch_dissolve_eq_self : ∀ b : Branch, Every (fun node => node.isLoose = false) [b] →
    b.dissolve = [b]
  | .mk node children, h => by
      obtain ⟨hnode, hchildren⟩ := h.mk
      rw [Branch.dissolve, if_neg (by simp [hnode]), dissolve_eq_self children hchildren]

theorem dissolve_eq_self : ∀ f : Forest, Every (fun node => node.isLoose = false) f → dissolve f = f
  | [], _ => rfl
  | b :: bs, h => by
      obtain ⟨hb, hbs⟩ := h.cons
      rw [dissolve, branch_dissolve_eq_self b hb, dissolve_eq_self bs hbs, List.singleton_append]

end

end Forest

end Shorthand
