import Shorthand.Proofs.Attribute.KeptTokens
import Shorthand.Proofs.Reader.Element

/-!
# What is written again as it was

A node that was read where another one was written is written as that one was, with one exception: a
class in a literal of which some tokens turned into equal words. Such a node is not settled, and it is
written with fewer spaces the second time (`Text.Shrinks`).
-/

namespace Shorthand

/-! ### Texts with fewer spaces -/

/-- The second text is the first one if `p` holds, and has fewer spaces if not. -/
structure Text.Shrinks (p : Prop) (cs ds : List Char) : Prop where
  same : p → ds = cs
  fewer : ¬p → ds.count ' ' < cs.count ' '

namespace Text.Shrinks

variable {p q : Prop} {cs ds es fs : List Char}

theorem refl (cs : List Char) : Shrinks True cs cs :=
  ⟨fun _ => rfl, fun h => absurd trivial h⟩

theorem congr (h : Shrinks p cs ds) (hpq : p ↔ q) : Shrinks q cs ds :=
  ⟨fun hq => h.same (hpq.2 hq), fun hq => h.fewer (mt hpq.1 hq)⟩

theorem count_le (h : Shrinks p cs ds) : ds.count ' ' ≤ cs.count ' ' := by
  by_cases hp : p
  · exact Nat.le_of_eq (by rw [h.same hp])
  · exact Nat.le_of_lt (h.fewer hp)

theorem append (h : Shrinks p cs ds) (h' : Shrinks q es fs) :
    Shrinks (p ∧ q) (cs ++ es) (ds ++ fs) where
  same := fun hpq => by rw [h.same hpq.1, h'.same hpq.2]
  fewer := by
    intro hnot
    have hle := h.count_le
    have hle' := h'.count_le
    rw [List.count_append, List.count_append]
    by_cases hp : p
    · have hlt := h'.fewer fun hq => hnot ⟨hp, hq⟩
      omega
    · have hlt := h.fewer hp
      omega

/-- A text in front makes no difference. -/
theorem append_left (h : Shrinks p cs ds) (front : List Char) :
    Shrinks p (front ++ cs) (front ++ ds) :=
  ((refl front).append h).congr (Iff.of_eq (true_and p))

theorem append_right (h : Shrinks p cs ds) (back : List Char) : Shrinks p (cs ++ back) (ds ++ back) :=
  (h.append (refl back)).congr (Iff.of_eq (and_true p))

/-- As many spaces as before means the same text. -/
theorem of_count_eq (h : Shrinks p cs ds) (hcount : ds.count ' ' = cs.count ' ') : p :=
  Classical.byContradiction fun hp => Nat.ne_of_lt (h.fewer hp) hcount

end Text.Shrinks

/-! ### Attributes -/

namespace Attribute

/-- A class in a literal is settled if what the literal keeps has distinct words; everything else
is. -/
def Settled (a : Attribute) : Prop :=
  a.name = some "class" → a.short? = none → a.options.isExpression = false →
    ∀ text ∈ a.valueText, (Text.words (Literal.kept text).toList).Nodup

variable {a : Attribute}

theorem WellFormed.valueText_reread (h : a.WellFormed) (hsettled : a.Settled) (hshort : a.short? = none)
    (hplain : a.options.isExpression = false) :
    a.reread.valueText = a.valueText.map Literal.kept := by
  rw [reread_of_literal hshort hplain]
  cases h with
  | unnamed value => rfl
  | @plain name hname hne value boolean implied =>
      cases value <;> simp [make, hne, valueText, Value.render]
  | expression => simp at hplain
  | @tokens list hset options hwritten =>
      have hnodup := hsettled rfl hshort hplain (" ".intercalate list) rfl
      have heq := intercalate_tokensOf hset.spaced_kept hnodup
      simp [make, valueText, Value.render, heq]

/-- A settled attribute reads back as itself the second time. -/
theorem WellFormed.reread_reread (h : a.WellFormed) (hsettled : a.Settled) :
    a.reread.reread = a.reread := by
  refine h.reread.reread_eq fun hshort hplain text htext => ?_
  rw [options_reread] at hplain
  cases hfirst : a.short? with
  | some short =>
      rw [reread_of_short hfirst, hfirst] at hshort
      simp at hshort
  | none =>
      rw [h.valueText_reread hsettled hfirst hplain] at htext
      obtain ⟨text', -, rfl⟩ := Option.map_eq_some_iff.1 htext
      exact Literal.kept_kept text'

/-- What the literal kept is written as it was before. -/
theorem write_kept {b : Attribute} (hname : b.name = a.name) (hoptions : b.options = a.options)
    (hplain : a.options.isExpression = false) (hvalue : b.valueText = a.valueText.map Literal.kept) :
    b.write = a.write := by
  rw [write, write, hname, hoptions, hvalue]
  cases a.name with
  | none =>
      cases a.valueText with
      | none => rfl
      | some text => exact Literal.write_kept text
  | some name =>
      cases a.valueText with
      | none => rfl
      | some text => simp [hplain, Literal.write_kept]

theorem count_space_write (text : String) :
    (Literal.write text).toList.count ' ' = text.toList.count ' ' := by
  have hne := Literal.quoteFor_ne_space text.toList
  rw [Literal.toList_write, List.count_append, List.count_cons_of_ne hne, List.count_singleton,
    (Literal.escapes_kept text).count_eq (by decide), if_neg (by simpa using hne), Nat.add_zero]

/-- A class that loses a token is written with fewer spaces. -/
theorem TokenSet.count_space_write_reread {list : List String} (h : TokenSet list) {options : Options}
    (hshort : Attribute.short? ⟨some "class", some (.tokens list), options⟩ = none)
    (hplain : options.isExpression = false)
    (hnodup : ¬(Text.words (Literal.kept (" ".intercalate list)).toList).Nodup) :
    (Attribute.reread ⟨some "class", some (.tokens list), options⟩).write.toList.count ' ' <
      (Attribute.write ⟨some "class", some (.tokens list), options⟩).toList.count ' ' := by
  -- The escapes add no space, and the lost token had one beside it.
  have hlt := count_space_intercalate_tokensOf h.spaced_kept hnodup
  have hkept := (Literal.escapes_kept (" ".intercalate list)).count_eq
    (show (' ' : Char) ≠ '\\' by decide)
  have htext : (Attribute.reread ⟨some "class", some (.tokens list), options⟩).valueText =
      some (" ".intercalate (tokensOf (Literal.kept (" ".intercalate list)))) := by
    rw [reread_of_literal hshort hplain]
    simp [make, valueText, Value.render]
  rw [toList_write_named "class" (name_reread _), toList_write_named "class" rfl, htext, options_reread]
  simp only [valueText, Option.map_some, Value.render, hplain, Bool.false_eq_true, if_false,
    List.count_append, List.count_cons, count_space_write]
  omega

/-- **An attribute is written again as it was** if it is settled, and with fewer spaces if not. -/
theorem WellFormed.shrinks_write (h : a.WellFormed) :
    Text.Shrinks a.Settled a.write.toList a.reread.write.toList := by
  by_cases hliteral : a.short? = none ∧ a.options.isExpression = false
  · obtain ⟨hshort, hplain⟩ := hliteral
    refine ⟨fun hsettled => ?_, fun hnot => ?_⟩
    · have hvalue := h.valueText_reread hsettled hshort hplain
      rw [write_kept (name_reread a) (options_reread a) hplain hvalue]
    · cases h with
      | unnamed value => exact absurd (fun hclass => absurd hclass (by simp [anonymous])) hnot
      | plain hname hne value boolean implied =>
          exact absurd (fun hclass => absurd hclass (by simpa using hne)) hnot
      | expression => simp at hplain
      | @tokens list hset options hwritten =>
          refine hset.count_space_write_reread hshort hplain fun hnodup => ?_
          refine hnot fun _ _ _ text htext => ?_
          obtain rfl : " ".intercalate list = text := Option.some.inj htext
          exact hnodup
  · rw [reread_of_not_literal hliteral]
    exact (Text.Shrinks.refl _).congr
      (iff_of_true trivial fun _ hshort hplain => absurd ⟨hshort, hplain⟩ hliteral)

/-- If all tokens that are read are made of name characters, so are the tokens that were written. -/
theorem TokenSet.isNameChar_of_kept {list : List String} (h : TokenSet list)
    (hkept : ∀ token ∈ tokensOf (Literal.kept (" ".intercalate list)),
      ∀ c ∈ token.toList, Node.isNameChar c = true) :
    ∀ token ∈ list, ∀ c ∈ token.toList, Node.isNameChar c = true := by
  intro token htoken c hc
  have hspace : c ≠ ' ' := by
    rintro rfl
    exact absurd ((h.isWord token htoken).2 ' ' hc) (by decide)
  have hjoined : c ∈ (" ".intercalate list).toList := by
    rw [String.toList_intercalate]
    exact (Text.mem_intercalate_iff hspace).2 ⟨token.toList, List.mem_map_of_mem htoken, hc⟩
  have hmem := (Literal.escapes_kept _).subset hjoined
  rw [← h.spaced_kept] at hmem
  obtain ⟨w, hw, hcw⟩ := (Text.mem_intercalate_iff hspace).1 hmem
  exact hkept _ (mem_tokensOf hw) c (by simpa using hcw)

theorem short?_class_ne_none {list : List String}
    (h : ∀ token ∈ list, ∀ c ∈ token.toList, Node.isNameChar c = true) :
    (Node.shortClass list).short? ≠ none := by
  have hall : (list.all fun token => token.toList.all Node.isNameChar) = true := by simpa using h
  by_cases hnil : list = []
  · simp [short?, Node.shortClass, hnil]
  · simp [short?, Node.shortClass, hnil, hall]

theorem short?_id_ne_none {value : String} (h : ∀ c ∈ value.toList, Node.isNameChar c = true) :
    (named "id" value).short? ≠ none := by
  have hall : value.toList.all Node.isNameChar = true := by simpa using h
  simp [short?, named, make, hall]

/-- What has no short form does not get one. -/
theorem WellFormed.short?_reread (h : a.WellFormed) : a.reread.short? = a.short? := by
  by_cases hliteral : a.short? = none ∧ a.options.isExpression = false
  · obtain ⟨hshort, hplain⟩ := hliteral
    rw [hshort, Option.eq_none_iff_forall_ne_some]
    intro short hsome
    have hoptions := options_of_short hsome
    rw [options_reread] at hoptions
    have hform := Node.short?_eq_some hsome
    rw [reread_of_literal hshort hplain, hoptions] at hform
    -- A short form needs name characters only, and then there was one before.
    cases h with
    | unnamed value => simp [anonymous, make, Node.shortClass, named] at hform
    | expression => simp at hplain
    | @plain name hname hne value boolean implied =>
        have hoptions : Options.plain boolean implied = {} := hoptions
        rw [hoptions] at hshort
        obtain ⟨tokens, heq, -⟩ | ⟨id, heq, hchars, -⟩ := hform
        · simp [make, hne, Node.shortClass] at heq
        · cases value with
          | none => simp [make, hne, named, valueText] at heq
          | some value =>
              obtain ⟨rfl, rfl⟩ : name = "id" ∧ Literal.kept value = id := by
                simpa [make, hne, named, valueText, Value.render] using heq
              refine short?_id_ne_none (fun c hc => hchars c ?_) hshort
              exact (Literal.escapes_kept value).subset hc
    | @tokens list hset options hwritten =>
        obtain rfl : options = {} := hoptions
        obtain ⟨tokens, heq, hchars, -⟩ | ⟨id, heq, -⟩ := hform
        · have htokens : tokensOf (Literal.kept (" ".intercalate list)) = tokens := by
            simpa [make, valueText, Value.render, Node.shortClass] using heq
          exact short?_class_ne_none (hset.isNameChar_of_kept (htokens ▸ hchars)) hshort
        · simp [make, named] at heq
  · rw [reread_of_not_literal hliteral]

/-! ### Lists -/

theorem shrinks_writeMore {as : List Attribute} (h : ∀ a ∈ as, a.WellFormed) :
    Text.Shrinks (∀ a ∈ as, a.Settled) (writeMore as) (writeMore (as.map reread)) := by
  induction as with
  | nil => exact (Text.Shrinks.refl _).congr (by simp)
  | cons a as ih =>
      obtain ⟨ha, has⟩ := List.forall_mem_cons.1 h
      have hboth := (ha.shrinks_write.append (ih has)).append_left [' ']
      exact hboth.congr List.forall_mem_cons.symm

theorem shrinks_writeList {row : List Attribute} (h : ∀ a ∈ row, a.WellFormed) :
    Text.Shrinks (∀ a ∈ row, a.Settled) (writeList row).toList (writeList (row.map reread)).toList := by
  by_cases hne : row = []
  · subst hne
    exact (Text.Shrinks.refl _).congr (by simp)
  · obtain ⟨a, as, has⟩ := List.exists_cons_of_ne_nil (List.reverse_ne_nil_iff.2 hne)
    obtain rfl : row = (a :: as).reverse := by rw [← has, List.reverse_reverse]
    simp only [List.mem_reverse, List.forall_mem_cons] at h ⊢
    have hlist : ∀ b bs, (writeList (b :: bs).reverse).toList =
        ['['] ++ ((b.write.toList ++ writeMore bs) ++ [']']) := by
      intro b bs
      rw [writeList, if_neg (by simp), List.reverse_reverse, String.append_assoc, String.toList_append,
        String.toList_append, toList_intercalate_write]
      rfl
    rw [List.map_reverse, List.map_cons, hlist, hlist]
    exact ((h.1.shrinks_write.append (shrinks_writeMore h.2)).append_right [']']).append_left ['[']

theorem shrinks_writeAllFrom {as : List Attribute} (has : ∀ a ∈ as, a.WellFormed) :
    ∀ row : List Attribute, (∀ a ∈ row, a.WellFormed) →
      Text.Shrinks ((∀ a ∈ row, a.Settled) ∧ ∀ a ∈ as, a.Settled) (writeAllFrom "" row as).toList
        (writeAllFrom "" (row.map reread) (as.map reread)).toList := by
  induction as with
  | nil =>
      intro row hrow
      rw [List.map_nil, writeAllFrom, writeAllFrom, String.empty_append, String.empty_append]
      exact (shrinks_writeList hrow).congr (by simp)
  | cons a as ih =>
      intro row hrow
      obtain ⟨ha, has⟩ := List.forall_mem_cons.1 has
      rw [List.map_cons, writeAllFrom, writeAllFrom, ha.short?_reread]
      cases hshort : a.short? with
      | none =>
          have hmore := ih has (a :: row) (List.forall_mem_cons.2 ⟨ha, hrow⟩)
          refine hmore.congr ?_
          simp only [List.forall_mem_cons]
          exact ⟨fun h => ⟨h.1.2, h.1.1, h.2⟩, fun h => ⟨⟨h.2.1, h.1⟩, h.2.2⟩⟩
      | some short =>
          have hsettled : a.Settled := fun _ hnone => by simp [hshort] at hnone
          have hmore := ((shrinks_writeList hrow).append_right short.toList).append
            (ih has [] (by simp))
          simp only
          rw [Node.writeAllFrom_eq, Node.writeAllFrom_eq ("" ++ writeList (row.map reread) ++ short)]
          simp only [String.toList_append, String.empty_append]
          refine hmore.congr ?_
          simp [hsettled]

end Attribute

/-! ### Nodes -/

namespace Node

/-- Are all attributes of the node settled? -/
def Settled (n : Node) : Prop :=
  ∀ a ∈ n.attributes, a.Settled

/-- **A node is written again as it was** if it is settled, and with fewer spaces if not. -/
theorem WellFormed.shrinks_write {n : Node} (h : n.WellFormed) (stamps : Bool) :
    Text.Shrinks n.Settled (n.write stamps).toList (n.reread.write stamps).toList := by
  have hattributes := Attribute.shrinks_writeAllFrom h.attributes [] (by simp)
  have hall := (hattributes.append_right
    (textPart n.text ++ (repeatPart stamps n.repeats ++ slashPart n.selfClosing))).append_left
    (n.name.getD "").toList
  rw [toList_write, toList_write]
  refine hall.congr ?_
  simp [Settled]

theorem WellFormed.reread_reread {n : Node} (h : n.WellFormed) (hsettled : n.Settled) :
    n.reread.reread = n.reread := by
  refine reread_eq_self fun a ha => ?_
  obtain ⟨b, hb, rfl⟩ := List.mem_map.1 ha
  exact (h.attributes b hb).reread_reread (hsettled b hb)

theorem Legible.reread {n : Node} (h : n.Legible) : n.reread.Legible := by
  intro a ha hname hexpression
  obtain ⟨b, hb, rfl⟩ := List.mem_map.1 ha
  rw [Attribute.options_reread] at hexpression
  rw [Attribute.reread_of_expression hexpression] at hname ⊢
  exact h b hb hname hexpression

end Node

end Shorthand
