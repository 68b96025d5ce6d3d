import Shorthand.Proofs.Reader.WellFormed
import Shorthand.Proofs.Tree.Listing
import Shorthand.Proofs.Tree.RoundTrip

/-!
# The nodes of a parsed tree

Seen from outside, without a word on how it was read, every node of a parsed tree is **proper**:
each of its parts is of the form that its kind asks for, and the parts fit together. This is what is
left to say once everything that is read is known to be well formed (`Tree.wellFormed_of_parse`).
-/

namespace Shorthand

/-- An attribute whose parts fit together. -/
structure Attribute.Proper (a : Attribute) : Prop where
  name : ∀ name ∈ a.name, name ≠ "" ∧
    ∀ x ∈ name.toList, x.isAlphanum = true ∨ x ∈ ['_', '-', ':', '$', '@']
  /-- A class holds a set of words. -/
  tokens : a.name = some "class" → ∃ tokens, a.value = some (.tokens tokens) ∧ tokens.Nodup ∧
    ∀ token ∈ tokens, token ≠ "" ∧ ∀ x ∈ token.toList, Text.isWhiteSpace x = false
  /-- Everything else holds a text, if it has a value. -/
  text : a.name ≠ some "class" → ∀ value ∈ a.value, ∃ text, value = .text text
  unnamed : a.name = none → a.value.isSome = true ∧ a.options = {}
  /-- Braces come in pairs, around a value. -/
  braces : a.options.before = none ∧ a.options.after = none ∨
    a.options.before = some "\x7b" ∧ a.options.after = some "\x7d" ∧ a.value.isSome = true

/-- A node whose parts fit together. -/
structure Node.Proper (n : Node) : Prop where
  name : ∀ name ∈ n.name, name ≠ "" ∧ ∀ x ∈ name.toList, Node.isNameChar x = true
  /-- The text reads back from between braces, to the end. -/
  text : ∀ text ∈ n.text, ∃ c, c.atEnd = true ∧
    Payload.read (Cursor.ofString ("\x7b" ++ text ++ "\x7d")) = .ok (some text, c)
  distinct : (n.attributes.map Attribute.name).Nodup
  attributes : ∀ a ∈ n.attributes, a.Proper
  pending : ∀ r ∈ n.repeats, r.isPending = true
  closing : n.selfClosing = true → n.isGroup = false

/-! ### Well-formed nodes are proper -/

namespace Attribute

theorem IsName.chars {name : String} (h : IsName name) : name ≠ "" ∧
    ∀ x ∈ name.toList, x.isAlphanum = true ∨ x ∈ ['_', '-', ':', '$', '@'] := by
  refine ⟨h.1, fun x hx => ?_⟩
  have hchar := h.2 x hx
  rw [isNameChar, Bool.or_eq_true, List.contains_iff_mem] at hchar
  exact hchar

/-- What is not a class has a text, or no value. -/
theorem proper_make {name : Option String} (hname : ∀ n ∈ name, IsName n) (hclass : name ≠ some "class")
    {value : Option String} {options : Options} (hunnamed : name = none → value.isSome ∧ options = {})
    (hbraces : options.before = none ∧ options.after = none ∨
      options.before = some "\x7b" ∧ options.after = some "\x7d" ∧ value.isSome = true) :
    Proper { make name value with options } where
  name := by
    simpa [make, hclass] using fun n hn => (hname n hn).chars
  tokens := by simp [make, hclass]
  text := by simp [make, hclass]
  unnamed := by simpa [make, hclass] using hunnamed
  braces := by simpa [make, hclass] using hbraces

theorem WellFormed.proper {a : Attribute} (h : a.WellFormed) : a.Proper := by
  cases h with
  | unnamed value =>
      have hmake : Proper { make none (some value) with options := {} } :=
        proper_make (by simp) (by simp) (by simp) (by simp)
      simpa [anonymous, make] using hmake
  | plain hname hclass value boolean implied =>
      exact proper_make (by simpa using hname) (by simpa using hclass) (by simp)
        (by simp [Options.plain])
  | expression hname hclass hbalanced boolean implied =>
      exact proper_make (by simpa using hname) (by simpa using hclass) (by simp)
        (by simp [Options.expression])
  | @tokens list hset options hwritten =>
      refine ⟨?_, fun _ => ⟨list, rfl, hset.nodup, ?_⟩, by simp, by simp, ?_⟩
      · intro name hname
        obtain rfl := Option.some.inj hname
        exact isName_class.chars
      · intro token htoken
        obtain ⟨hne, hfree⟩ := hset.isWord token htoken
        exact ⟨by simpa using hne, hfree⟩
      · obtain ⟨boolean, implied, rfl | rfl⟩ := hwritten
        · exact Or.inl ⟨rfl, rfl⟩
        · exact Or.inr ⟨rfl, rfl, rfl⟩

end Attribute

theorem Node.WellFormed.proper {n : Node} (h : n.WellFormed) : n.Proper where
  name := h.name
  text := by
    intro text htext
    have hreads := Payload.read_braces (h.text text htext) []
    obtain ⟨c, hread, hrest⟩ := hreads (Cursor.ofString ("\x7b" ++ text ++ "\x7d"))
      (List.append_nil _).symm
    exact ⟨c, by simp [Cursor.atEnd, hrest], hread⟩
  distinct := h.distinct
  attributes := fun a ha => (h.attributes a ha).proper
  pending := by
    intro r hr
    rw [Repeat.isPending, (h.repeats r hr).pending]
    rfl
  closing := h.closing

/-! ### Parsed trees -/

/-- The root is an empty node, whatever was read. -/
theorem Tree.node_root_parse {source : String} {t : Tree} (h : Tree.parse source = .ok t) :
    t.node t.root = {} := by
  obtain ⟨hsound, -⟩ := Tree.parse_ok h
  obtain ⟨hlist, -⟩ := Builder.forecast_run Builder.start _ (o := {}) Builder.holds_start h
  rw [hsound.ids_eq, List.map_cons] at hlist
  exact (Prod.mk.inj (List.cons.inj hlist).1).2

/-- What is below the root is the root itself or a node of the forest. -/
theorem Tree.Sound.node_of_below {t : Tree} (h : t.Sound) {id : NodeId} (hid : t.Below t.root id) :
    t.node id = t.node t.root ∨ t.node id ∈ Forest.nodes t.forest := by
  rw [← h.mem_ids, ← h.descendants_ids, List.mem_cons] at hid
  rcases hid with rfl | hid
  · exact Or.inl rfl
  · obtain ⟨entry, hentry, rfl⟩ := List.mem_map.1 hid
    refine Or.inr (h.mem_contents_iff.2 ⟨(t.node entry.1, entry.2), ?_, rfl⟩)
    exact List.mem_map.2 ⟨entry, hentry, rfl⟩

/-- **Every node of a parsed tree is proper**, the root included. -/
theorem Tree.proper_of_parse {source : String} {t : Tree} (h : Tree.parse source = .ok t)
    {id : NodeId} (hid : t.Below t.root id) : (t.node id).Proper := by
  obtain ⟨hsound, -⟩ := Tree.parse_ok h
  rcases hsound.node_of_below hid with hroot | hnode
  · rw [hroot, Tree.node_root_parse h]
    exact Node.wellFormed_empty.proper
  · exact (Tree.wellFormed_of_parse h _ hnode).proper

/-- A class written three times, the second time as an expression, with options that stay. -/
theorem Tree.proper_of_parse_classes : ∃ t,
    Tree.parse "a.x[!class=\x7by  x y\x7d 'q' b.]\x7b\\\x7d\x7d.z*2/" = .ok t ∧
      t.Below t.root ⟨1⟩ ∧ (t.node ⟨1⟩).attributes.map Attribute.value =
        [some (.tokens ["y", "x", "z"]), some (.text "q"), none] ∧ (t.node ⟨1⟩).Proper := by
  obtain ⟨t, h, hnode⟩ : ∃ t,
      Tree.parse "a.x[!class=\x7by  x y\x7d 'q' b.]\x7b\\\x7d\x7d.z*2/" = .ok t ∧
        (t.root, t.parent ⟨1⟩, (t.node ⟨1⟩).attributes.map Attribute.value) = (⟨0⟩, some ⟨0⟩,
          [some (.tokens ["y", "x", "z"]), some (.text "q"), none]) := by
    refine Tree.exists_parse_of_map ?_
    decide +kernel
  obtain ⟨hroot, hparent, hvalues⟩ : t.root = ⟨0⟩ ∧ t.parent ⟨1⟩ = some ⟨0⟩ ∧ _ = _ := by
    simpa only [Prod.mk.injEq] using hnode
  have hbelow : t.Below t.root ⟨1⟩ := (Tree.Below.refl t.root).child (by rw [hparent, hroot])
  exact ⟨t, h, hbelow, hvalues, Tree.proper_of_parse h hbelow⟩

end Shorthand
