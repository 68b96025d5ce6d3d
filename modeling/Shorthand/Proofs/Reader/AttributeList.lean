import Shorthand.Proofs.Node.Reread
import Shorthand.Proofs.Reader.WellFormed

/-!
# Attribute lists read back

`Entry a text` says which texts stand for the attribute `a` in a list: a literal, a bare name, and a
name with a literal or an expression. An entry is read in front of what can follow it there, and so
is a list of them. Where an attribute without a short form was written, there stands an entry for
what it reads back as (`Attribute.reread`).
-/

namespace Shorthand.Attribute

/-- A name as it is written, with its two marks. -/
def nameToken (name : String) (boolean implied : Bool) : List Char :=
  (if implied then ['!'] else []) ++ name.toList ++ (if boolean then ['.'] else [])

/-- The text stands for the attribute in a list. -/
inductive Entry : Attribute → List Char → Prop where
  | unnamed (value : String) :
      Entry (anonymous (Literal.kept value)) (Literal.write value).toList
  | bare {name : String} (is_name : IsName name) (boolean implied : Bool) :
      Entry { make (some name) none with options := .plain boolean implied }
        (nameToken name boolean implied)
  | quoted {name : String} (is_name : IsName name) (value : String) (boolean implied : Bool) :
      Entry { make (some name) (some (Literal.kept value)) with options := .plain boolean implied }
        (nameToken name boolean implied ++ '=' :: (Literal.write value).toList)
  | expression {name value : String} (is_name : IsName name) (balanced : Payload.Balanced value.toList)
      (boolean implied : Bool) :
      Entry { make (some name) (some value) with options := .expression boolean implied }
        (nameToken name boolean implied ++ '=' :: ("\x7b" ++ value ++ "\x7d").toList)

/-- What may follow an entry: white space or the end of the list. -/
def EntryEnd (rest : List Char) : Prop :=
  rest.head? = some ' ' ∨ rest.head? = some ']'

theorem EntryEnd.stops {rest : List Char} (h : EntryEnd rest) {p : Char → Bool} (hspace : p ' ' = false)
    (hclose : p ']' = false) : Text.Stops p rest := by
  intro x hx
  rcases h with h | h
  · obtain rfl : ' ' = x := by simpa [h] using hx
    exact hspace
  · obtain rfl : ']' = x := by simpa [h] using hx
    exact hclose

/-! ### Names -/

theorem isUnquotedChar_of_isNameChar {c : Char} (h : isNameChar c = true) :
    isUnquotedChar c = true := by
  have hnode : Node.isNameChar c = true := by
    rw [isNameChar, Bool.or_eq_true] at h
    rw [Node.isNameChar, Bool.or_eq_true]
    rcases h with h | h
    · exact .inl h
    · refine .inr ?_
      simp only [List.contains_eq_mem, List.mem_cons, List.not_mem_nil, or_false,
        decide_eq_true_eq] at h ⊢
      tauto
  have hspace := Node.isWhiteSpace_of_isNameChar hnode
  have hreserved : reservedChars.contains c = false := by
    refine Bool.eq_false_iff.2 fun hmem => ?_
    simp only [reservedChars, List.contains_eq_mem, List.mem_cons, List.not_mem_nil, or_false,
      decide_eq_true_eq] at hmem
    rcases hmem with rfl | rfl | rfl | rfl | rfl <;> exact absurd h (by decide)
  have hquote : Literal.isQuote c = false := by
    refine Bool.eq_false_iff.2 fun hq => ?_
    simp only [Literal.isQuote, Bool.or_eq_true, beq_iff_eq] at hq
    rcases hq with rfl | rfl <;> exact absurd h (by decide)
  simp only [isUnquotedChar, hspace, hreserved, hquote, Bool.not_false, Bool.and_self]

theorem isUnquotedChar_of_mem_nameToken {name : String} (h : IsName name) {boolean implied : Bool}
    {x : Char} (hx : x ∈ nameToken name boolean implied) : isUnquotedChar x = true := by
  simp only [nameToken, List.mem_append] at hx
  rcases hx with (hx | hx) | hx
  · cases implied with
    | false => simp at hx
    | true =>
        obtain rfl : x = '!' := by simpa using hx
        decide
  · exact isUnquotedChar_of_isNameChar (h.2 x hx)
  · cases boolean with
    | false => simp at hx
    | true =>
        obtain rfl : x = '.' := by simpa using hx
        decide

theorem nameToken_ne_nil {name : String} (h : IsName name) (boolean implied : Bool) :
    nameToken name boolean implied ≠ [] := by
  have hne : name.toList ≠ [] := by simpa using h.1
  simp [nameToken, h.1]

/-- A name is recognized with its marks. -/
theorem writtenName?_nameToken {name : String} (h : IsName name) (boolean implied : Bool) :
    writtenName? (nameToken name boolean implied) = some ⟨name.toList, boolean, implied⟩ := by
  have hne : name.toList ≠ [] := by simpa using h.1
  have hall : name.toList.all isNameChar = true := List.all_eq_true.2 h.2
  have hfront : ∀ tail : List Char, (name.toList ++ tail).head? ≠ some '!' := by
    intro tail hhead
    rw [List.head?_append_of_ne_nil _ hne] at hhead
    exact absurd (h.2 _ (List.mem_of_head? hhead)) (by decide)
  have hback : name.toList.getLast? ≠ some '.' := by
    intro hlast
    exact absurd (h.2 _ (List.mem_of_getLast? hlast)) (by decide)
  have hmark : dropFront '!' (nameToken name boolean implied) =
      (name.toList ++ (if boolean then ['.'] else []), implied) := by
    cases implied with
    | false =>
        have hhead := hfront (if boolean then ['.'] else [])
        simp only [dropFront, nameToken, Bool.false_eq_true, if_false, List.nil_append, hhead]
    | true => simp [dropFront, nameToken]
  have hpoint : dropBack '.' (name.toList ++ (if boolean then ['.'] else [])) =
      (name.toList, boolean) := by
    cases boolean with
    | false => simp [dropBack, hback]
    | true => simp [dropBack]
  simp only [writtenName?, hmark, hpoint, hall]
  simp [h.1]

/-! ### Entries -/

theorem isUnquotedChar_spec {x : Char} (h : isUnquotedChar x = true) :
    Text.isWhiteSpace x = false ∧ reservedChars.contains x = false ∧ Literal.isQuote x = false := by
  simpa [isUnquotedChar, and_assoc] using h

theorem readUnquoted_eq {token tail : List Char} (hall : ∀ x ∈ token, isUnquotedChar x = true)
    (hne : token ≠ []) (hstop : Text.Stops isUnquotedChar tail) (hbrace : tail.head? ≠ some '\x7b') :
    Cursor.Reads readUnquoted token (String.ofList token) tail := by
  intro c hc
  obtain ⟨htoken, htail⟩ := Cursor.run_eq hall hstop hc
  refine ⟨(c.run isUnquotedChar).2, ?_, htail⟩
  have hnone := Payload.read_none (c := (c.run isUnquotedChar).2) (by rw [htail]; exact hbrace)
  have hempty : token.isEmpty = false := by simpa using hne
  simp only [readUnquoted, htoken, hempty, Bool.false_eq_true, if_false]
  rw [readUnquotedFrom.eq_def]
  split
  · next herr => simp [hnone] at herr
  · rfl
  · next hsome => simp [hnone] at hsome

/-- Where a name is written, the entry is what the name and what stands behind it give. -/
theorem readEntry_named {name : String} (h : IsName name) {boolean implied : Bool} {a : Attribute}
    {tail rest : List Char}
    (hread : Cursor.Reads (readNamed ⟨name.toList, boolean, implied⟩) tail a rest)
    (hstop : Text.Stops isUnquotedChar (tail ++ rest)) (hbrace : (tail ++ rest).head? ≠ some '\x7b')
    {c : Cursor}
    (hc : (c.skip Text.isWhiteSpace).rest = nameToken name boolean implied ++ tail ++ rest) :
    ∃ c', readEntry c = .ok (some a, c') ∧ c'.rest = rest := by
  rw [List.append_assoc] at hc
  have hne := nameToken_ne_nil h boolean implied
  have hall : ∀ x ∈ nameToken name boolean implied, isUnquotedChar x = true :=
    fun x hx => isUnquotedChar_of_mem_nameToken h hx
  obtain ⟨c₁, htoken, hc₁⟩ := readUnquoted_eq hall hne hstop hbrace _ hc
  obtain ⟨c', hnamed, hc'⟩ := hread c₁ hc₁
  have hhead : ∀ {p : Char → Bool}, (∀ x, isUnquotedChar x = true → p x = false) →
      Text.Stops p (c.skip Text.isWhiteSpace).rest := by
    intro p hp x hx
    rw [hc, List.head?_append_of_ne_nil _ hne] at hx
    exact hp x (hall x (List.mem_of_head? hx))
  have hend : (c.skip Text.isWhiteSpace).eat? (· == ']') = none := by
    refine Cursor.eat?_eq_none (hhead fun x hx => ?_)
    refine Bool.eq_false_iff.2 fun heq => ?_
    obtain rfl : x = ']' := by simpa using heq
    exact absurd hx (by decide)
  have hliteral := Literal.read_none (hhead fun x hx => (isUnquotedChar_spec hx).2.2)
  refine ⟨c', ?_, hc'⟩
  simp only [readEntry, bind, Except.bind, pure, Except.pure, hend, hliteral, htoken,
    String.toList_ofList, writtenName?_nameToken h, hnamed]
  simp [hne]

theorem readValue_write (value : String) (rest : List Char) :
    Cursor.Reads readValue (Literal.write value).toList (Literal.kept value, false) rest := by
  intro c hc
  obtain ⟨c', hread, hc'⟩ := Literal.read_write value rest c hc
  refine ⟨c', ?_, hc'⟩
  simp only [readValue, bind, Except.bind, pure, Except.pure, hread]

theorem readValue_braces {value : String} (h : Payload.Balanced value.toList) (rest : List Char) :
    Cursor.Reads readValue ("\x7b" ++ value ++ "\x7d").toList (value, true) rest := by
  intro c hc
  obtain ⟨c', hread, hc'⟩ := Payload.read_braces h rest c hc
  have hliteral : Literal.read c = .ok (none, c) := by
    refine Literal.read_none ?_
    rw [hc]
    simpa using Text.Stops.cons (by decide) _
  refine ⟨c', ?_, hc'⟩
  simp only [readValue, bind, Except.bind, pure, Except.pure, hliteral, hread]

/-- A `=` leads to a value. -/
theorem readNamed_value (written : WrittenName) {value : String} {expression : Bool}
    {text rest : List Char} (hread : Cursor.Reads readValue text (value, expression) rest) :
    Cursor.Reads (readNamed written) ('=' :: text)
      { make (some (String.ofList written.name)) (some value) with
        options := if expression then .expression written.boolean written.implied
          else .plain written.boolean written.implied } rest := by
  intro c hc
  obtain ⟨c', hvalue, hc'⟩ := hread (c.past ['='] (text ++ rest)) rfl
  refine ⟨c', ?_, hc'⟩
  have heat : c.eat? (· == '=') = some (c.past ['='] (text ++ rest)) :=
    Cursor.eat?_eq_some hc (by decide)
  simp only [readNamed, heat, bind, Except.bind, pure, Except.pure, hvalue]
  cases expression with
  | false => rfl
  | true => rfl

/-- **An entry reads back** in front of what can follow it. -/
theorem Entry.readEntry_eq {a : Attribute} {text rest : List Char} (h : Entry a text)
    (hrest : EntryEnd rest) {c : Cursor} (hc : (c.skip Text.isWhiteSpace).rest = text ++ rest) :
    ∃ c', readEntry c = .ok (some a, c') ∧ c'.rest = rest := by
  cases h with
  | unnamed value =>
      obtain ⟨c', hread, hc'⟩ := Literal.read_write value rest _ hc
      have hend : (c.skip Text.isWhiteSpace).eat? (· == ']') = none := by
        have hstop : Text.Stops (· == ']') (Literal.write value).toList :=
          Literal.stops_write (by decide) (by decide) value
        refine Cursor.eat?_eq_none fun x hx => ?_
        rw [hc, List.head?_append_of_ne_nil _ (by simp [Literal.write])] at hx
        exact hstop x hx
      refine ⟨c', ?_, hc'⟩
      simp only [readEntry, bind, Except.bind, pure, Except.pure, hend, hread]
  | @bare name hname boolean implied =>
      have hread : Cursor.Reads (readNamed ⟨name.toList, boolean, implied⟩) []
          { make (some name) none with options := .plain boolean implied } rest := by
        intro c hc
        have hnone : c.eat? (· == '=') = none := by
          refine Cursor.eat?_eq_none ?_
          rw [hc]
          exact hrest.stops (by decide) (by decide)
        refine ⟨c, ?_, hc⟩
        simp [readNamed, hnone, Options.plain]
      refine readEntry_named hname hread (hrest.stops (by decide) (by decide)) ?_ (by simpa using hc)
      rcases hrest with h | h <;> simp [h]
  | @quoted name hname value boolean implied =>
      have hread := readNamed_value ⟨name.toList, boolean, implied⟩ (readValue_write value rest)
      simp only [String.ofList_toList] at hread
      exact readEntry_named hname hread (.cons (by decide) _) (by simp) hc
  | @expression name value hname hbalanced boolean implied =>
      have hread := readNamed_value ⟨name.toList, boolean, implied⟩
        (readValue_braces hbalanced rest)
      simp only [String.ofList_toList] at hread
      exact readEntry_named hname hread (.cons (by decide) _) (by simp) hc

/-- No entry starts with white space. -/
theorem Entry.stops {a : Attribute} {text : List Char} (h : Entry a text) :
    text ≠ [] ∧ Text.Stops Text.isWhiteSpace text := by
  have htoken : ∀ {name : String} (boolean implied : Bool), IsName name → ∀ tail : List Char,
      nameToken name boolean implied ++ tail ≠ [] ∧
        Text.Stops Text.isWhiteSpace (nameToken name boolean implied ++ tail) := by
    intro name boolean implied hname tail
    have hne := nameToken_ne_nil hname boolean implied
    refine ⟨by simp [hne], ?_⟩
    intro x hx
    rw [List.head?_append_of_ne_nil _ hne] at hx
    exact (isUnquotedChar_spec (isUnquotedChar_of_mem_nameToken hname (List.mem_of_head? hx))).1
  cases h with
  | unnamed => exact ⟨by simp [Literal.write], Literal.stops_write (by decide) (by decide) _⟩
  | bare hname boolean implied => simpa using htoken boolean implied hname []
  | quoted hname value boolean implied => exact htoken boolean implied hname _
  | expression hname _ boolean implied => exact htoken boolean implied hname _

/-! ### Lists -/

/-- The entries of a list behind the first one. -/
def writeMore (as : List Attribute) : List Char :=
  as.flatMap fun a => ' ' :: a.write.toList

theorem toList_intercalate_write (a : Attribute) (as : List Attribute) :
    (" ".intercalate ((a :: as).map write)).toList = a.write.toList ++ writeMore as := by
  induction as generalizing a with
  | nil => simp [writeMore]
  | cons b as ih =>
      have hcons := ih b
      rw [List.map_cons] at hcons
      rw [List.map_cons, List.map_cons, String.intercalate_cons_cons]
      simp [hcons, writeMore]

theorem rest_skip_of_stops {c : Cursor} {cs : List Char} (hc : c.rest = cs ∨ c.rest = ' ' :: cs)
    (hstop : Text.Stops Text.isWhiteSpace cs) : (c.skip Text.isWhiteSpace).rest = cs := by
  rcases hc with hc | hc
  · have hnone : ∀ x ∈ ([] : List Char), Text.isWhiteSpace x = true := by simp
    exact (Cursor.run_eq hnone hstop hc).2
  · have hspace : ∀ x ∈ [' '], Text.isWhiteSpace x = true := List.all_eq_true.1 (by decide)
    exact (Cursor.run_eq hspace hstop hc).2

theorem entryEnd_writeMore (as : List Attribute) (rest : List Char) :
    EntryEnd (writeMore as ++ ']' :: rest) := by
  cases as with
  | nil => exact .inr rfl
  | cons a as => exact .inl rfl

theorem readEntries_eq (found : List Attribute) (c : Cursor) :
    readEntries found c = match readEntry c with
      | .error failure => .error failure
      | .ok (none, c') => .ok (found.reverse, c')
      | .ok (some a, c') => readEntries (a :: found) c' := by
  rw [readEntries.eq_def]
  split <;> simp [*]

/-- One more entry, with or without a space in front of it. -/
theorem readEntries_cons {a : Attribute} {text : List Char} (h : Entry a text) {found : List Attribute}
    {more rest : List Char} {list : List Attribute} (hend : EntryEnd (more ++ rest))
    (hmore : Cursor.Reads (readEntries (a :: found)) more list rest) {c : Cursor}
    (hc : c.rest = text ++ more ++ rest ∨ c.rest = ' ' :: (text ++ more ++ rest)) :
    ∃ c', readEntries found c = .ok (list, c') ∧ c'.rest = rest := by
  obtain ⟨hne, hstop⟩ := h.stops
  have hskip : (c.skip Text.isWhiteSpace).rest = text ++ (more ++ rest) := by
    rw [← List.append_assoc]
    refine rest_skip_of_stops hc ?_
    intro x hx
    rw [List.append_assoc, List.head?_append_of_ne_nil _ hne] at hx
    exact hstop x hx
  obtain ⟨c₁, hread, hc₁⟩ := h.readEntry_eq hend hskip
  obtain ⟨c', hentries, hc'⟩ := hmore c₁ hc₁
  exact ⟨c', by rw [readEntries_eq, hread, ← hentries], hc'⟩

theorem readEntries_end (found : List Attribute) (rest : List Char) :
    Cursor.Reads (readEntries found) [']'] found.reverse rest := by
  intro c hc
  have hskip : (c.skip Text.isWhiteSpace).rest = ']' :: rest :=
    rest_skip_of_stops (.inl hc) (.cons (by decide) _)
  have heat : (c.skip Text.isWhiteSpace).eat? (· == ']') =
      some ((c.skip Text.isWhiteSpace).past [']'] rest) := Cursor.eat?_eq_some hskip (by decide)
  have hread : readEntry c = .ok (none, (c.skip Text.isWhiteSpace).past [']'] rest) := by
    simp only [readEntry, heat]
  exact ⟨_, by rw [readEntries_eq, hread], Cursor.rest_past (c.skip Text.isWhiteSpace) [']'] rest⟩

theorem readEntries_writeMore {as : List Attribute} (h : ∀ a ∈ as, Entry a.reread a.write.toList)
    (found : List Attribute) (rest : List Char) :
    Cursor.Reads (readEntries found) (writeMore as ++ [']'])
      (found.reverse ++ as.map reread) rest := by
  induction as generalizing found with
  | nil => simpa [writeMore] using readEntries_end found rest
  | cons a as ih =>
      intro c hc
      have hmore := ih (fun b hb => h b (by simp [hb])) (a.reread :: found)
      rw [List.reverse_cons, List.append_assoc, List.singleton_append] at hmore
      refine readEntries_cons (h a (by simp)) ?_ hmore (.inr ?_)
      · simpa using entryEnd_writeMore as rest
      · simpa [writeMore] using hc

theorem writeList_eq_cons {row : List Attribute} (hne : row ≠ []) :
    ∃ cs, (writeList row).toList = '[' :: cs := by
  rw [writeList, if_neg (by simpa using hne), String.append_assoc, String.toList_append]
  exact ⟨_, rfl⟩

/-- **A list of attributes is read** where it was written. -/
theorem readList_write {row : List Attribute} (hne : row ≠ [])
    (h : ∀ a ∈ row, Entry a.reread a.write.toList) (rest : List Char) :
    Cursor.Reads readList (writeList row).toList (some (row.reverse.map reread)) rest := by
  intro c hc
  obtain ⟨a, as, has⟩ := List.exists_cons_of_ne_nil (List.reverse_ne_nil_iff.2 hne)
  have hentry : ∀ b ∈ a :: as, Entry b.reread b.write.toList := by
    rw [← has]
    exact fun b hb => h b (List.mem_reverse.1 hb)
  have htext : c.rest = '[' :: (a.write.toList ++ (writeMore as ++ [']']) ++ rest) := by
    rw [writeList, if_neg (by simpa using hne), String.toList_append, String.toList_append, has,
      toList_intercalate_write] at hc
    simpa using hc
  have heat : c.eat? (· == '[') =
      some (c.past ['['] (a.write.toList ++ (writeMore as ++ [']']) ++ rest)) :=
    Cursor.eat?_eq_some htext (by decide)
  have htail : ∀ b ∈ as, Entry b.reread b.write.toList := fun b hb => hentry b (by simp [hb])
  have hmore := readEntries_writeMore htail [a.reread] rest
  rw [List.reverse_singleton, List.singleton_append, ← List.map_cons, ← has] at hmore
  obtain ⟨c', hread, hc'⟩ := readEntries_cons (hentry a (by simp))
    (by simpa using entryEnd_writeMore as rest) hmore
    (.inl (Cursor.rest_past c ['['] (a.write.toList ++ (writeMore as ++ [']']) ++ rest)))
  refine ⟨c', ?_, hc'⟩
  simp only [readList, heat, bind, Except.bind, pure, Except.pure, hread]

/-! ### Attributes as they are written -/

theorem toList_write_named {a : Attribute} (name : String) (h : a.name = some name) :
    a.write.toList = nameToken name a.options.boolean a.options.implied ++
      (match a.valueText with
        | none => []
        | some text =>
          if a.options.isExpression then '=' :: ("\x7b" ++ text ++ "\x7d").toList
          else '=' :: (Literal.write text).toList) := by
  have hmark : ∀ flag : Bool, (if flag then "!" else "").toList = if flag then ['!'] else [] := by
    decide
  have hpoint : ∀ flag : Bool, (if flag then "." else "").toList = if flag then ['.'] else [] := by
    decide
  simp only [write, h, String.toList_append, nameToken, hmark, hpoint, List.append_assoc]
  cases a.valueText with
  | none => simp
  | some text =>
      cases a.options.isExpression with
      | false => simp
      | true => simp

/-- An attribute without a short form is written as an entry for what it reads back as. -/
theorem WellFormed.entry_write {a : Attribute} (h : a.WellFormed) (hlegible : a.Legible)
    (hshort : a.short? = none) : Entry a.reread a.write.toList := by
  cases h with
  | unnamed value =>
      have hwrite : (anonymous value).write = Literal.write value := by
        simp [write, anonymous, make, valueText, Value.render]
      rw [hwrite, reread_of_literal hshort rfl]
      exact .unnamed value
  | @plain name hname hne value boolean implied =>
      have hmake : make (some name) value = ⟨some name, value.map .text, {}⟩ := by simp [make, hne]
      rw [reread_of_literal hshort rfl, toList_write_named name (by simp [hmake])]
      cases value with
      | none =>
          have htext := Entry.bare hname boolean implied
          simpa [hmake, valueText] using htext
      | some value =>
          have htext := Entry.quoted hname value boolean implied
          simpa [hmake, valueText, Value.render] using htext
  | @expression name value hname hne hbalanced boolean implied =>
      have hmake : make (some name) (some value) = ⟨some name, some (.text value), {}⟩ := by
        simp [make, hne]
      rw [reread_of_expression (by simp), toList_write_named name (by simp [hmake])]
      have htext := Entry.expression hname hbalanced boolean implied
      simpa [hmake, valueText, Value.render] using htext
  | @tokens list hset options hwritten =>
      -- A class is written as one text, which reads back as the tokens in it.
      obtain ⟨boolean, implied, rfl | rfl⟩ := hwritten
      · rw [reread_of_literal hshort rfl, toList_write_named "class" rfl]
        have htext := Entry.quoted isName_class (" ".intercalate list) boolean implied
        simpa [valueText, Value.render] using htext
      · rw [reread_of_expression (by simp), toList_write_named "class" rfl]
        have hbalanced := hlegible rfl (by simp) (" ".intercalate list) rfl
        have htext := Entry.expression isName_class hbalanced boolean implied
        simpa [make, valueText, Value.render, hset.tokensOf_intercalate] using htext

end Shorthand.Attribute
