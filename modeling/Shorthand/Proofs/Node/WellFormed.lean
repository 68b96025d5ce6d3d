import Shorthand.Node.Reader
import Shorthand.Payload.Grammar
import Shorthand.Proofs.Attribute.TokenSet

/-!
# Well-formed nodes

What every node that was read is like:

* its name is made of name characters, its text is balanced and its repeat is pending;
* its attributes have distinct names, where those without a name count as having the same one;
* each attribute has the value that goes with its name, and braces only around a balanced text.

Setting an attribute and adding a class keep a node well formed.
-/

namespace Shorthand

/-- As repeats are read: pending, with a count that the notation can hold. -/
structure Repeat.WellFormed (r : Repeat) : Prop where
  pending : r.copy = none
  count_le : ∀ count, r.count = some count → count ≤ Numeral.maxCount

namespace Attribute

/-- The name of an attribute: name characters, at least one. -/
def IsName (name : String) : Prop :=
  name ≠ "" ∧ ∀ c ∈ name.toList, isNameChar c = true

/-- The options of an attribute whose value was not written as an expression. -/
def Options.plain (boolean implied : Bool) : Options :=
  { boolean, implied }

/-- The options of an attribute whose value was written as an expression. -/
def Options.expression (boolean implied : Bool) : Options :=
  { boolean, implied, before := some "\x7b", after := some "\x7d" }

@[simp] theorem Options.boolean_plain (boolean implied : Bool) :
    (plain boolean implied).boolean = boolean := rfl

@[simp] theorem Options.implied_plain (boolean implied : Bool) :
    (plain boolean implied).implied = implied := rfl

@[simp] theorem Options.boolean_expression (boolean implied : Bool) :
    (expression boolean implied).boolean = boolean := rfl

@[simp] theorem Options.implied_expression (boolean implied : Bool) :
    (expression boolean implied).implied = implied := rfl

@[simp] theorem Options.isExpression_plain (boolean implied : Bool) :
    (plain boolean implied).isExpression = false := rfl

@[simp] theorem Options.isExpression_expression (boolean implied : Bool) :
    (expression boolean implied).isExpression = true := by
  simp [expression, isExpression]

/-- As attributes are read. -/
inductive WellFormed : Attribute → Prop where
  /-- A value without a name. -/
  | unnamed (value : String) : WellFormed (anonymous value)
  /-- A name, perhaps with a value. -/
  | plain {name : String} (is_name : IsName name) (ne_class : name ≠ "class") (value : Option String)
      (boolean implied : Bool) :
      WellFormed { make (some name) value with options := .plain boolean implied }
  /-- A name with an expression. -/
  | expression {name value : String} (is_name : IsName name) (ne_class : name ≠ "class")
      (balanced : Payload.Balanced value.toList) (boolean implied : Bool) :
      WellFormed { make (some name) (some value) with options := .expression boolean implied }
  /-- A class. -/
  | tokens {list : List String} (set : TokenSet list) {options : Options}
      (written : ∃ boolean implied,
        options = .plain boolean implied ∨ options = .expression boolean implied) :
      WellFormed { name := some "class", value := some (.tokens list), options }

theorem isName_class : IsName "class" :=
  ⟨by decide, List.all_eq_true.1 (by decide)⟩

theorem wellFormed_named {name : String} (h : IsName name) (value : String) :
    (named name value).WellFormed := by
  by_cases hclass : name = "class"
  · subst hclass
    exact .tokens (tokenSet_tokensOf _) ⟨false, false, .inl rfl⟩
  · have hplain := WellFormed.plain h hclass (some value) false false
    simpa [named, make, hclass, Options.plain] using hplain

/-- The attribute of the given name always has the value that goes with it. -/
theorem wellFormed_make {name : String} (h : IsName name) (value : Option String)
    (boolean implied : Bool) :
    WellFormed { make (some name) value with options := .plain boolean implied } := by
  by_cases hclass : name = "class"
  · subst hclass
    exact .tokens (tokenSet_tokensOf _) ⟨boolean, implied, .inl rfl⟩
  · exact .plain h hclass value boolean implied

theorem wellFormed_make_expression {name value : String} (h : IsName name)
    (hvalue : Payload.Balanced value.toList) (boolean implied : Bool) :
    WellFormed { make (some name) (some value) with options := .expression boolean implied } := by
  by_cases hclass : name = "class"
  · subst hclass
    exact .tokens (tokenSet_tokensOf _) ⟨boolean, implied, .inr rfl⟩
  · exact .expression h hclass hvalue boolean implied

/-- Tokens are only ever held as a set. -/
theorem WellFormed.tokenSet {a : Attribute} (h : a.WellFormed) {list : List String}
    (hvalue : a.value = some (.tokens list)) : TokenSet list := by
  cases h with
  | unnamed value => simp [anonymous, make] at hvalue
  | plain _ hne value => simp [make, hne] at hvalue
  | expression _ hne _ => simp [make, hne] at hvalue
  | tokens hset =>
      cases hvalue
      exact hset

/-- A class stays one when a token is added. -/
theorem WellFormed.retoken {a : Attribute} (h : a.WellFormed) (hclass : a.name = some "class")
    {token : String} (hfree : ∀ c ∈ token.toList, Text.isWhiteSpace c = false) :
    WellFormed { a with value := some (.tokens (addToken a.tokens token)) } := by
  cases h with
  | unnamed value => simp [anonymous, make] at hclass
  | plain _ hne value => exact absurd hclass (by simp [make, hne])
  | expression _ hne _ => exact absurd hclass (by simp [make, hne])
  | tokens hset hwritten => exact .tokens (hset.addToken hfree) hwritten

end Attribute

namespace Node

/-- As nodes are read. -/
structure WellFormed (n : Node) : Prop where
  name : ∀ name, n.name = some name → name ≠ "" ∧ ∀ c ∈ name.toList, isNameChar c = true
  text : ∀ text, n.text = some text → Payload.Balanced text.toList
  attributes : ∀ a ∈ n.attributes, a.WellFormed
  distinct : (n.attributes.map Attribute.name).Nodup
  repeats : ∀ r, n.repeats = some r → r.WellFormed
  closing : n.selfClosing = true → n.isGroup = false

/-! ### Changes to the attributes -/

/-- A node is as well formed as what takes the place of its attributes. -/
theorem WellFormed.of_attributes {n : Node} (h : n.WellFormed) {attributes : List Attribute}
    (hwell : ∀ a ∈ attributes, a.WellFormed) (hdistinct : (attributes.map Attribute.name).Nodup)
    (hne : attributes ≠ []) : WellFormed { n with attributes } where
  name := h.name
  text := h.text
  attributes := hwell
  distinct := hdistinct
  repeats := h.repeats
  closing := by
    intro _
    simp [isGroup, hne]

theorem map_name_updateFirst {name : Option String} {f : Attribute → Attribute}
    (hf : ∀ a, a.name = name → (f a).name = name) (as : List Attribute) :
    (updateFirst name f as).map Attribute.name = as.map Attribute.name := by
  induction as with
  | nil => rfl
  | cons a as ih =>
      rw [updateFirst]
      split
      · next hname => simp [hf a hname, hname]
      · simp [ih]

theorem mem_updateFirst {name : Option String} {f : Attribute → Attribute} {as : List Attribute}
    {b : Attribute} (h : b ∈ updateFirst name f as) : b ∈ as ∨ ∃ a ∈ as, a.name = name ∧ b = f a := by
  induction as with
  | nil => simp [updateFirst] at h
  | cons a as ih =>
      rw [updateFirst] at h
      split at h
      · next hname =>
        rcases List.mem_cons.1 h with rfl | h
        · exact .inr ⟨a, by simp, hname, rfl⟩
        · exact .inl (by simp [h])
      · rcases List.mem_cons.1 h with rfl | h
        · exact .inl (by simp)
        · rcases ih h with hmem | ⟨a', ha', hname, hb⟩
          · exact .inl (by simp [hmem])
          · exact .inr ⟨a', by simp [ha'], hname, hb⟩

theorem WellFormed.updateFirst {n : Node} (h : n.WellFormed) {name : Option String}
    {f : Attribute → Attribute} (hany : n.attributes ≠ [])
    (hname : ∀ a, a.name = name → (f a).name = name)
    (hwell : ∀ a, a.WellFormed → a.name = name → (f a).WellFormed) :
    WellFormed { n with attributes := Node.updateFirst name f n.attributes } := by
  refine h.of_attributes ?_ ?_ ?_
  · intro b hb
    rcases mem_updateFirst hb with hmem | ⟨a, ha, haname, rfl⟩
    · exact h.attributes b hmem
    · exact hwell a (h.attributes a ha) haname
  · rw [map_name_updateFirst hname]
    exact h.distinct
  · intro hnil
    have hmap := map_name_updateFirst hname n.attributes
    rw [hnil] at hmap
    exact hany (List.map_eq_nil_iff.1 hmap.symm)

theorem WellFormed.setAttribute {n : Node} (h : n.WellFormed) {a : Attribute} (ha : a.WellFormed) :
    (n.setAttribute a).WellFormed := by
  rw [Node.setAttribute]
  split
  · next hany =>
    obtain ⟨b, hb, -⟩ := List.any_eq_true.1 hany
    exact h.updateFirst (List.ne_nil_of_mem hb) (fun _ _ => rfl) fun _ _ _ => ha
  · next hnone =>
    refine h.of_attributes ?_ ?_ (by simp)
    · intro b hb
      rcases List.mem_append.1 hb with hb | hb
      · exact h.attributes b hb
      · obtain rfl := List.mem_singleton.1 hb
        exact ha
    · rw [List.map_append, List.map_singleton, List.nodup_append]
      refine ⟨h.distinct, by simp, ?_⟩
      rintro x hx y hy rfl
      obtain ⟨b, hb, rfl⟩ := List.mem_map.1 hx
      exact hnone (List.any_eq_true.2 ⟨b, hb, by simpa using hy⟩)

theorem WellFormed.foldl_setAttribute {n : Node} (h : n.WellFormed) {list : List Attribute}
    (hlist : ∀ a ∈ list, a.WellFormed) : (list.foldl Node.setAttribute n).WellFormed := by
  induction list generalizing n with
  | nil => exact h
  | cons a list ih =>
      exact ih (h.setAttribute (hlist a (by simp))) fun b hb => hlist b (by simp [hb])

theorem WellFormed.addClass {n : Node} (h : n.WellFormed) {token : String}
    (hfree : ∀ c ∈ token.toList, Text.isWhiteSpace c = false) : (n.addClass token).WellFormed := by
  rw [Node.addClass, Text.trimmed_of_no_space hfree]
  split
  · next hhas =>
    have hany : n.attributes ≠ [] := by
      rintro hnil
      simp [hasAttribute, attribute?, hnil] at hhas
    exact h.updateFirst hany (fun _ hname => hname) fun a ha hname => ha.retoken hname hfree
  · exact h.setAttribute (Attribute.wellFormed_named Attribute.isName_class token)

@[simp] theorem selfClosing_setAttribute (n : Node) (a : Attribute) :
    (n.setAttribute a).selfClosing = n.selfClosing := by
  rw [setAttribute]
  split <;> rfl

@[simp] theorem selfClosing_addClass (n : Node) (token : String) :
    (n.addClass token).selfClosing = n.selfClosing := by
  rw [addClass]
  split
  · rfl
  · simp

theorem selfClosing_foldl_setAttribute (list : List Attribute) (n : Node) :
    (list.foldl setAttribute n).selfClosing = n.selfClosing := by
  induction list generalizing n with
  | nil => rfl
  | cons a list ih => rw [List.foldl_cons, ih, selfClosing_setAttribute]

end Node

end Shorthand
