import Shorthand.Proofs.Reader.AttributeList

/-!
# Elements are read where they were written

An element is read part by part, and each part that is written is read in front of the next one:
none of them starts with a name character, which could belong to the part before. A part that carries
attributes puts them behind those read already, since their names are new.
-/

namespace Shorthand.Node

/-- What may follow an element that was written: an operator other than `^`, the end of a group, or
the end of the text. -/
def ElementEnd (rest : List Char) : Prop :=
  ∀ x, rest.head? = some x → x ∈ ['+', '>', ')']

theorem ElementEnd.stops {rest : List Char} (h : ElementEnd rest) : Text.Stops isNameChar rest := by
  intro x hx
  have hmem := h x hx
  simp only [List.mem_cons, List.not_mem_nil, or_false] at hmem
  rcases hmem with rfl | rfl | rfl <;> decide

/-! ### One part -/

theorem readPart_absent {c : Cursor} (h : ElementEnd c.rest) (n : Node) :
    readPart n c = .ok (.absent, c) := by
  cases hrest : c.rest with
  | nil => simp [readPart, hrest]
  | cons x rest =>
      have hmem := h x (by simp [hrest])
      simp only [List.mem_cons, List.not_mem_nil, or_false] at hmem
      rcases hmem with rfl | rfl | rfl <;> simp [readPart, hrest, isNameChar]

section

variable {n : Node} {rest : List Char}

theorem readPart_name {name : String} (h : name ≠ "" ∧ ∀ c ∈ name.toList, isNameChar c = true)
    (hname : n.name = none) (hattributes : n.attributes = []) (hrest : Text.Stops isNameChar rest) :
    Cursor.Reads (readPart n) name.toList (.more { n with name := some name }) rest := by
  intro c hc
  obtain ⟨x, xs, hx⟩ := List.exists_cons_of_ne_nil (by simpa using h.1 : name.toList ≠ [])
  have hchar : isNameChar x = true := h.2 x (by simp [hx])
  obtain ⟨htoken, htail⟩ := Cursor.takeRun_eq h.2 hrest hc
  refine ⟨(c.takeRun isNameChar).2, ?_, htail⟩
  have hhead : ∀ {y : Char} {ys : List Char}, c.rest = y :: ys → isNameChar y = true := by
    intro y ys hy
    obtain rfl : x = y := by simpa [hx, hy] using congrArg List.head? hc.symm
    exact hchar
  unfold readPart
  split
  · next hnil => simp [hnil, hx] at hc
  · next hdot => exact absurd (hhead hdot) (by decide)
  · next hhash => exact absurd (hhead hhash) (by decide)
  · next hslash => exact absurd (hhead hslash) (by decide)
  · next hbracket => exact absurd (hhead hbracket) (by decide)
  · next hbrace => exact absurd (hhead hbrace) (by decide)
  · next hstar => exact absurd (hhead hstar) (by decide)
  · next hother => simp [hhead hother, hname, hattributes, htoken]

theorem readPart_class {token : String} (h : ∀ c ∈ token.toList, isNameChar c = true)
    (hrest : Text.Stops isNameChar rest) :
    Cursor.Reads (readPart n) ('.' :: token.toList) (.more (n.addClass token)) rest := by
  intro c hc
  rw [List.cons_append] at hc
  obtain ⟨htoken, htail⟩ := Cursor.takeRun_eq h hrest (Cursor.rest_advance hc)
  refine ⟨(c.advance.takeRun isNameChar).2, ?_, htail⟩
  simp [readPart, hc, htoken]

theorem readPart_id {value : String} (h : ∀ c ∈ value.toList, isNameChar c = true)
    (hrest : Text.Stops isNameChar rest) :
    Cursor.Reads (readPart n) ('#' :: value.toList)
      (.more (n.setAttribute (Attribute.named "id" value))) rest := by
  intro c hc
  rw [List.cons_append] at hc
  obtain ⟨htoken, htail⟩ := Cursor.takeRun_eq h hrest (Cursor.rest_advance hc)
  refine ⟨(c.advance.takeRun isNameChar).2, ?_, htail⟩
  simp [readPart, hc, htoken]

theorem readPart_list {row : List Attribute} (hne : row ≠ [])
    (h : ∀ a ∈ row, Attribute.Entry a.reread a.write.toList) :
    Cursor.Reads (readPart n) (Attribute.writeList row).toList
      (.more ((row.reverse.map Attribute.reread).foldl setAttribute n)) rest := by
  intro c hc
  obtain ⟨c', hread, hc'⟩ := Attribute.readList_write hne h rest c hc
  refine ⟨c', ?_, hc'⟩
  obtain ⟨cs, hcs⟩ := Attribute.writeList_eq_cons hne
  rw [hcs, List.cons_append] at hc
  simp [readPart, hc, hread]

theorem readPart_text {text : String} (h : Payload.Balanced text.toList) :
    Cursor.Reads (readPart n) ("\x7b" ++ text ++ "\x7d").toList (.more { n with text := some text })
      rest := by
  intro c hc
  obtain ⟨c', hread, hc'⟩ := Payload.read_braces h rest c hc
  refine ⟨c', ?_, hc'⟩
  have hhead : c.rest = '\x7b' :: (text.toList ++ '\x7d' :: rest) := by simpa using hc
  simp [readPart, hhead, hread]

theorem readPart_repeat {r : Repeat} (h : r.WellFormed) (stamps : Bool)
    (hrest : Text.Stops isNameChar rest) :
    Cursor.Reads (readPart n) (r.write stamps).toList (.more { n with repeats := some r }) rest := by
  intro c hc
  obtain ⟨hread, hc'⟩ := Repeat.read_write h stamps (hrest.of_imp isNameChar_of_isDigit) hc
  refine ⟨(Repeat.read c).2, ?_, hc'⟩
  obtain ⟨cs, hcs⟩ := Repeat.write_eq_cons stamps r
  rw [hcs, List.cons_append] at hc
  have hpair : Repeat.read c = (some r, (Repeat.read c).2) := Prod.ext hread rfl
  simp only [readPart, hc]
  rw [hpair]

theorem readPart_slash (hgroup : n.isGroup = false) (hrest : ElementEnd rest) :
    Cursor.Reads (readPart n) ['/'] (.last { n with selfClosing := true }) rest := by
  intro c hc
  have hnone : Repeat.read c.advance = (none, c.advance) := by
    refine Repeat.read_none ?_
    rw [Cursor.rest_advance hc]
    intro hstar
    exact absurd (hrest '*' hstar) (by decide)
  refine ⟨c.advance, ?_, Cursor.rest_advance hc⟩
  have hhead : c.rest = '/' :: rest := hc
  simp [readPart, hhead, readSlash, hgroup, hnone]

end

/-! ### Part after part -/

theorem readParts_eq (n : Node) (c : Cursor) :
    readParts n c = match readPart n c with
      | .error failure => .error failure
      | .ok (.absent, _) => .ok (n, c)
      | .ok (.last n', c') => .ok (n', c')
      | .ok (.more n', c') => readParts n' c' := by
  rw [readParts.eq_def]
  split <;> simp [*]

theorem readParts_more {n n₁ n₂ : Node} {part parts rest : List Char}
    (hpart : Cursor.Reads (readPart n) part (.more n₁) (parts ++ rest))
    (hparts : Cursor.Reads (readParts n₁) parts n₂ rest) :
    Cursor.Reads (readParts n) (part ++ parts) n₂ rest := by
  intro c hc
  obtain ⟨c₁, hread, hc₁⟩ := hpart c (by simpa using hc)
  obtain ⟨c', hreads, hc'⟩ := hparts c₁ hc₁
  exact ⟨c', by rw [readParts_eq, hread, ← hreads], hc'⟩

theorem readParts_last {n n' : Node} {part rest : List Char}
    (hpart : Cursor.Reads (readPart n) part (.last n') rest) :
    Cursor.Reads (readParts n) part n' rest := by
  intro c hc
  obtain ⟨c', hread, hc'⟩ := hpart c hc
  exact ⟨c', by rw [readParts_eq, hread], hc'⟩

theorem readParts_end (n : Node) {rest : List Char} (h : ElementEnd rest) :
    Cursor.Reads (readParts n) [] n rest := by
  intro c hc
  rw [List.nil_append] at hc
  have hread := readPart_absent (by rw [hc]; exact h) n
  exact ⟨c, by rw [readParts_eq, hread], hc⟩

/-! ### Attributes with new names -/

theorem setAttribute_of_new {n : Node} {a : Attribute}
    (h : a.name ∉ n.attributes.map Attribute.name) :
    n.setAttribute a = { n with attributes := n.attributes ++ [a] } := by
  rw [setAttribute, if_neg]
  intro hany
  obtain ⟨b, hb, hname⟩ := List.any_eq_true.1 hany
  exact h (List.mem_map.2 ⟨b, hb, by simpa using hname⟩)

theorem foldl_setAttribute_of_new {list : List Attribute} {n : Node}
    (h : ((n.attributes ++ list).map Attribute.name).Nodup) :
    list.foldl setAttribute n = { n with attributes := n.attributes ++ list } := by
  induction list generalizing n with
  | nil => simp
  | cons a list ih =>
      have hnew : a.name ∉ n.attributes.map Attribute.name := by
        intro hmem
        rw [List.map_append, List.nodup_append] at h
        exact h.2.2 a.name hmem a.name (by simp) rfl
      rw [List.foldl_cons, setAttribute_of_new hnew, ih (by simpa using h)]
      simp

/-- A class that was written in its short form. -/
def shortClass (tokens : List String) : Attribute :=
  { name := some "class", value := some (.tokens tokens) }

theorem addClass_of_new {n : Node} (h : some "class" ∉ n.attributes.map Attribute.name) {token : String}
    (hfree : ∀ c ∈ token.toList, Text.isWhiteSpace c = false) :
    n.addClass token =
      { n with attributes := n.attributes ++ [shortClass (Attribute.tokensOf token)] } := by
  have hhas : n.hasAttribute "class" = false := by
    rw [hasAttribute, attribute?, List.find?_eq_none.2, Option.isSome_none]
    intro a ha hname
    exact h (List.mem_map.2 ⟨a, ha, by simpa using hname⟩)
  rw [addClass, hhas, Text.trimmed_of_no_space hfree]
  exact setAttribute_of_new h

theorem updateFirst_append {name : Option String} {f : Attribute → Attribute} {as : List Attribute}
    (h : name ∉ as.map Attribute.name) {a : Attribute} (ha : a.name = name) :
    updateFirst name f (as ++ [a]) = as ++ [f a] := by
  induction as with
  | nil => simp [updateFirst, ha]
  | cons b as ih =>
      simp only [List.map_cons, List.mem_cons, not_or] at h
      rw [List.cons_append, updateFirst, if_neg (Ne.symm h.1), ih h.2]
      rfl

theorem addClass_of_last {n : Node} {as : List Attribute}
    (h : some "class" ∉ as.map Attribute.name) {tokens : List String} {token : String}
    (hfree : ∀ c ∈ token.toList, Text.isWhiteSpace c = false) :
    addClass { n with attributes := as ++ [shortClass tokens] } token =
      { n with attributes := as ++ [shortClass (Attribute.addToken tokens token)] } := by
  have hhas : hasAttribute { n with attributes := as ++ [shortClass tokens] } "class" = true := by
    rw [hasAttribute, attribute?, List.find?_isSome]
    exact ⟨shortClass tokens, by simp, by simp [shortClass]⟩
  rw [addClass, if_pos hhas, Text.trimmed_of_no_space hfree, updateClass]
  simp only [updateFirst_append h (show (shortClass tokens).name = some "class" from rfl)]
  rfl

/-! ### Short forms -/

/-- Each token behind a point. -/
def dotted (tokens : List String) : List Char :=
  tokens.flatMap fun token => '.' :: token.toList

theorem stops_dotted (tokens : List String) {rest : List Char} (h : Text.Stops isNameChar rest) :
    Text.Stops isNameChar (dotted tokens ++ rest) := by
  cases tokens with
  | nil => exact h
  | cons token tokens => exact .cons (by decide) _

/-- Only a class and an id have a short form, if name characters are all that is in them. -/
theorem short?_eq_some {a : Attribute} {short : String} (h : a.short? = some short) :
    (∃ tokens, a = shortClass tokens ∧
      (∀ token ∈ tokens, ∀ c ∈ token.toList, isNameChar c = true) ∧
        short.toList = if tokens = [] then ['.'] else dotted tokens) ∨
    (∃ value, a = Attribute.named "id" value ∧ (∀ c ∈ value.toList, isNameChar c = true) ∧
      short.toList = '#' :: value.toList) := by
  obtain ⟨name, value, options⟩ := a
  rw [Attribute.short?] at h
  split at h
  · simp at h
  · next hoptions =>
    obtain rfl : options = {} := by simpa using hoptions
    split at h
    · -- A class: each token behind a point, and a lone point for no tokens.
      next tokens hname hvalue =>
      cases hname
      cases hvalue
      refine .inl ⟨tokens, rfl, ?_⟩
      split at h
      · next hempty =>
        cases h
        obtain rfl : tokens = [] := by simpa using hempty
        simp
      · next hempty =>
        split at h
        · next hall =>
          cases h
          have hne : tokens ≠ [] := by simpa using hempty
          refine ⟨by simpa using hall, ?_⟩
          rw [if_neg hne, String.toList_join, List.flatMap_map, dotted]
          simp
        · cases h
    · -- An id, whatever its text.
      next content hname hvalue =>
      cases hname
      cases hvalue
      split at h
      · next hall =>
        cases h
        exact .inr ⟨content, rfl, by simpa using hall, by simp⟩
      · cases h
    · cases h

theorem readParts_dotted {n n' : Node} {as : List Attribute} {parts rest : List Char}
    (hnew : some "class" ∉ as.map Attribute.name) (hstop : Text.Stops isNameChar (parts ++ rest)) :
    ∀ {more found : List String}, Attribute.TokenSet (found ++ more) →
      (∀ token ∈ more, ∀ c ∈ token.toList, isNameChar c = true) →
      Cursor.Reads (readParts { n with attributes := as ++ [shortClass (found ++ more)] }) parts n'
        rest →
      Cursor.Reads (readParts { n with attributes := as ++ [shortClass found] }) (dotted more ++ parts)
        n' rest := by
  intro more
  induction more with
  | nil =>
      intro found hset hchars hparts
      simpa [dotted] using hparts
  | cons token more ih =>
      intro found hset hchars hparts
      have htoken : ∀ c ∈ token.toList, isNameChar c = true := hchars token (by simp)
      have hmore := @ih (found ++ [token]) (by simpa using hset)
        (fun t ht => hchars t (by simp [ht])) (by simpa using hparts)
      have hadd : Attribute.addToken found token = found ++ [token] := by
        have hset₁ : Attribute.TokenSet (found ++ [token]) := hset.sublist (by simp)
        exact hset₁.foldl_addToken_eq
      have hfree : ∀ c ∈ token.toList, Text.isWhiteSpace c = false :=
        fun c hc => isWhiteSpace_of_isNameChar (htoken c hc)
      rw [← hadd, ← addClass_of_last hnew hfree] at hmore
      have hdots : Text.Stops isNameChar (dotted more ++ parts ++ rest) := by
        rw [List.append_assoc]
        exact stops_dotted more hstop
      have hall := readParts_more (readPart_class htoken hdots) hmore
      simpa [dotted] using hall

theorem readParts_short {n n' : Node} {a : Attribute} {short : String} {parts rest : List Char}
    (ha : a.WellFormed) (hshort : a.short? = some short)
    (hnew : a.name ∉ n.attributes.map Attribute.name) (hstop : Text.Stops isNameChar (parts ++ rest))
    (hparts : Cursor.Reads (readParts { n with attributes := n.attributes ++ [a] }) parts n' rest) :
    Cursor.Reads (readParts n) (short.toList ++ parts) n' rest := by
  obtain ⟨tokens, rfl, hchars, htext⟩ | ⟨value, rfl, hchars, htext⟩ := short?_eq_some hshort
  · have hset : Attribute.TokenSet tokens := ha.tokenSet rfl
    -- The first token makes the attribute, the others go into it.
    obtain ⟨first, more, hfirst, hof, hshorttext⟩ : ∃ (first : String) (more : List String),
        (∀ c ∈ first.toList, isNameChar c = true) ∧ Attribute.tokensOf first ++ more = tokens ∧
          short.toList = '.' :: first.toList ++ dotted more := by
      cases tokens with
      | nil => exact ⟨"", [], by simp, rfl, by simpa [dotted] using htext⟩
      | cons token tokens =>
          have hone : Attribute.TokenSet [token] := hset.sublist (by simp)
          have htoken : Attribute.tokensOf token = [token] := by simpa using hone.tokensOf_intercalate
          refine ⟨token, tokens, hchars token (by simp), ?_, by simpa [dotted] using htext⟩
          rw [htoken, List.singleton_append]
    subst hof
    have hmore := readParts_dotted hnew hstop hset (fun t ht => hchars t (by simp [ht])) hparts
    have hfree : ∀ c ∈ first.toList, Text.isWhiteSpace c = false :=
      fun c hc => isWhiteSpace_of_isNameChar (hfirst c hc)
    rw [← addClass_of_new hnew hfree] at hmore
    have hdots : Text.Stops isNameChar (dotted more ++ parts ++ rest) := by
      rw [List.append_assoc]
      exact stops_dotted more hstop
    rw [hshorttext, List.append_assoc]
    exact readParts_more (readPart_class hfirst hdots) hmore
  · rw [← setAttribute_of_new hnew] at hparts
    rw [htext]
    exact readParts_more (readPart_id hchars hstop) hparts

/-- Names stay as they are when attributes are written and read. -/
theorem map_name_reread (as : List Attribute) :
    (as.map Attribute.reread).map Attribute.name = as.map Attribute.name := by
  simp [Function.comp_def]

theorem readParts_list {n n' : Node} {row : List Attribute} {parts rest : List Char}
    (hrow : ∀ a ∈ row, Attribute.Entry a.reread a.write.toList)
    (hnew : ((n.attributes ++ row.reverse).map Attribute.name).Nodup)
    (hparts : Cursor.Reads
      (readParts { n with attributes := n.attributes ++ row.reverse.map Attribute.reread }) parts n'
      rest) :
    Cursor.Reads (readParts n) ((Attribute.writeList row).toList ++ parts) n' rest := by
  by_cases hne : row = []
  · subst hne
    simpa [Attribute.writeList] using hparts
  · rw [List.map_append, ← map_name_reread row.reverse, ← List.map_append] at hnew
    rw [← foldl_setAttribute_of_new hnew] at hparts
    exact readParts_more (readPart_list hne hrow) hparts

/-! ### All attributes -/

theorem writeAllFrom_eq (done : String) (row as : List Attribute) :
    Attribute.writeAllFrom done row as = done ++ Attribute.writeAllFrom "" row as := by
  induction as generalizing done row with
  | nil => simp [Attribute.writeAllFrom]
  | cons a as ih =>
      rw [Attribute.writeAllFrom, Attribute.writeAllFrom]
      cases a.short? with
      | none => exact ih done (a :: row)
      | some short =>
          simp only
          rw [ih, ih ("" ++ Attribute.writeList row ++ short)]
          simp [String.append_assoc]

theorem stops_writeList (row : List Attribute) :
    Text.Stops isNameChar (Attribute.writeList row).toList := by
  by_cases hne : row = []
  · simpa [hne, Attribute.writeList] using Text.Stops.nil
  · obtain ⟨cs, hcs⟩ := Attribute.writeList_eq_cons hne
    rw [hcs]
    exact .cons (by decide) cs

theorem stops_short {a : Attribute} {short : String} (h : a.short? = some short) :
    Text.Stops isNameChar short.toList := by
  obtain ⟨tokens, -, -, htext⟩ | ⟨value, -, -, htext⟩ := short?_eq_some h
  · rw [htext]
    cases tokens with
    | nil => exact .cons (by decide) []
    | cons token tokens => exact .cons (by decide) _
  · rw [htext]
    exact .cons (by decide) _

theorem stops_writeAllFrom (row as : List Attribute) :
    Text.Stops isNameChar (Attribute.writeAllFrom "" row as).toList := by
  induction as generalizing row with
  | nil => simpa [Attribute.writeAllFrom] using stops_writeList row
  | cons a as ih =>
      rw [Attribute.writeAllFrom]
      cases hshort : a.short? with
      | none => exact ih (a :: row)
      | some short =>
          simp only
          rw [writeAllFrom_eq, String.toList_append, String.toList_append, String.toList_append]
          exact ((Text.Stops.nil.append (stops_writeList row)).append (stops_short hshort)).append (ih [])

/-- Attributes are read in order, whatever rows they are written in. -/
theorem readParts_writeAllFrom {n' : Node} {parts rest : List Char}
    (hstop : Text.Stops isNameChar (parts ++ rest)) :
    ∀ {as row : List Attribute} {n : Node}, (∀ a ∈ as, a.WellFormed ∧ a.Legible) →
      (∀ a ∈ row, Attribute.Entry a.reread a.write.toList) →
      ((n.attributes ++ (row.reverse ++ as)).map Attribute.name).Nodup →
      Cursor.Reads (readParts
        { n with attributes := n.attributes ++ (row.reverse ++ as).map Attribute.reread }) parts n'
        rest →
      Cursor.Reads (readParts n) ((Attribute.writeAllFrom "" row as).toList ++ parts) n' rest := by
  intro as
  -- On the attributes still to be written: each goes into the row, or ends it with a short form.
  induction as with
  | nil =>
      intro row n has hrow hnew hparts
      rw [List.append_nil] at hnew hparts
      rw [Attribute.writeAllFrom, String.empty_append]
      exact readParts_list hrow hnew hparts
  | cons a as ih =>
      intro row n has hrow hnew hparts
      obtain ⟨⟨hwell, hlegible⟩, has⟩ := List.forall_mem_cons.1 has
      rw [Attribute.writeAllFrom]
      cases hshort : a.short? with
      | none =>
          have hrow' : ∀ b ∈ a :: row, Attribute.Entry b.reread b.write.toList :=
            List.forall_mem_cons.2 ⟨hwell.entry_write hlegible hshort, hrow⟩
          exact ih has hrow' (by simpa using hnew) (by simpa using hparts)
      | some short =>
          have hmore : Cursor.Reads
              (readParts
                { n with attributes := n.attributes ++ row.reverse.map Attribute.reread ++ [a] })
              ((Attribute.writeAllFrom "" [] as).toList ++ parts) n' rest :=
            ih has (by simp) (by simpa [Function.comp_def] using hnew)
              (by simpa [Attribute.reread_of_short hshort] using hparts)
          have hstop' : Text.Stops isNameChar
              ((Attribute.writeAllFrom "" [] as).toList ++ parts ++ rest) := by
            rw [List.append_assoc]
            exact (stops_writeAllFrom [] as).append hstop
          have hfront : ((n.attributes ++ row.reverse ++ [a]).map Attribute.name).Nodup := by
            refine hnew.sublist (List.Sublist.map _ ?_)
            simp
          have hfresh : a.name ∉
              (n.attributes ++ row.reverse.map Attribute.reread).map Attribute.name := by
            rw [List.map_append, List.nodup_append] at hfront
            rw [List.map_append, map_name_reread, ← List.map_append]
            exact fun hmem => hfront.2.2 a.name hmem a.name (by simp) rfl
          have hrowfresh : ((n.attributes ++ row.reverse).map Attribute.name).Nodup := by
            refine hfront.sublist (List.Sublist.map _ ?_)
            simp
          have hall := readParts_list hrow hrowfresh (readParts_short hwell hshort hfresh hstop' hmore)
          simp only
          rw [writeAllFrom_eq]
          simpa using hall

/-! ### Whole elements -/

/-- A text between its braces; nothing if there is none. -/
def textPart (text : Option String) : List Char :=
  (text.map fun text => ("\x7b" ++ text ++ "\x7d").toList).getD []

/-- A repeat as it is written; nothing if there is none. -/
def repeatPart (stamps : Bool) (repeats : Option Repeat) : List Char :=
  (repeats.map fun r => (r.write stamps).toList).getD []

/-- The end mark, if it is set. -/
def slashPart (selfClosing : Bool) : List Char :=
  if selfClosing then ['/'] else []

theorem toList_write (stamps : Bool) (n : Node) :
    (n.write stamps).toList = (n.name.getD "").toList ++ ((Attribute.writeAll n.attributes).toList ++
      (textPart n.text ++ (repeatPart stamps n.repeats ++ slashPart n.selfClosing))) := by
  obtain ⟨name, text, attributes, repeats, selfClosing⟩ := n
  simp only [write, String.toList_append, List.append_assoc]
  congr 3
  · cases text <;> simp [textPart]
  · congr 1
    · cases repeats <;> simp [repeatPart]
    · cases selfClosing <;> simp [slashPart]

theorem stops_textPart (text : Option String) : Text.Stops isNameChar (textPart text) := by
  cases text with
  | none => exact .nil
  | some text => simpa [textPart] using Text.Stops.cons (by decide) _

theorem stops_repeatPart (stamps : Bool) (repeats : Option Repeat) :
    Text.Stops isNameChar (repeatPart stamps repeats) := by
  cases repeats with
  | none => exact .nil
  | some r =>
      obtain ⟨cs, hcs⟩ := Repeat.write_eq_cons stamps r
      simpa [repeatPart, hcs] using Text.Stops.cons (by decide) cs

theorem stops_slashPart (selfClosing : Bool) : Text.Stops isNameChar (slashPart selfClosing) := by
  cases selfClosing with
  | false => exact .nil
  | true => exact .cons (by decide) []

theorem readParts_slashPart {n : Node} (hgroup : n.isGroup = false) {rest : List Char}
    (hrest : ElementEnd rest) (selfClosing : Bool) (hopen : n.selfClosing = false) :
    Cursor.Reads (readParts n) (slashPart selfClosing) { n with selfClosing } rest := by
  obtain ⟨name, text, attributes, repeats, _⟩ := n
  subst hopen
  cases selfClosing with
  | false => exact readParts_end _ hrest
  | true => exact readParts_last (readPart_slash hgroup hrest)

section

variable {n n' : Node} {parts rest : List Char}

theorem readParts_repeatPart {repeats : Option Repeat} (h : ∀ r, repeats = some r → r.WellFormed)
    (stamps : Bool) (hstop : Text.Stops isNameChar (parts ++ rest)) (hnone : n.repeats = none)
    (hparts : Cursor.Reads (readParts { n with repeats }) parts n' rest) :
    Cursor.Reads (readParts n) (repeatPart stamps repeats ++ parts) n' rest := by
  cases repeats with
  | none =>
      rw [← hnone] at hparts
      exact hparts
  | some r => exact readParts_more (readPart_repeat (h r rfl) stamps hstop) hparts

theorem readParts_textPart {text : Option String}
    (h : ∀ content, text = some content → Payload.Balanced content.toList) (hnone : n.text = none)
    (hparts : Cursor.Reads (readParts { n with text }) parts n' rest) :
    Cursor.Reads (readParts n) (textPart text ++ parts) n' rest := by
  cases text with
  | none =>
      rw [← hnone] at hparts
      exact hparts
  | some content => exact readParts_more (readPart_text (h content rfl)) hparts

theorem readParts_name {name : Option String}
    (h : ∀ token, name = some token → token ≠ "" ∧ ∀ c ∈ token.toList, isNameChar c = true)
    (hstop : Text.Stops isNameChar (parts ++ rest)) (hnone : n.name = none)
    (hattributes : n.attributes = [])
    (hparts : Cursor.Reads (readParts { n with name }) parts n' rest) :
    Cursor.Reads (readParts n) ((name.getD "").toList ++ parts) n' rest := by
  cases name with
  | none =>
      rw [← hnone] at hparts
      exact hparts
  | some token => exact readParts_more (readPart_name (h token rfl) hnone hattributes hstop) hparts

end

/-- The parts of a well-formed element are read one after the other. -/
theorem readParts_write {n : Node} (h : n.WellFormed) (hlegible : n.Legible)
    (hgroup : n.isGroup = false) (stamps : Bool) {rest : List Char} (hrest : ElementEnd rest) :
    Cursor.Reads (readParts {}) (n.write stamps).toList n.reread rest := by
  rw [← isGroup_reread] at hgroup
  rw [toList_write]
  obtain ⟨name, text, attributes, repeats, selfClosing⟩ := n
  -- From the last part to the first: each is read in front of those behind it.
  have hslash : Cursor.Reads (readParts ⟨name, text, attributes.map Attribute.reread, repeats, false⟩)
      (slashPart selfClosing) (reread ⟨name, text, attributes, repeats, selfClosing⟩) rest :=
    readParts_slashPart (n := ⟨name, text, attributes.map Attribute.reread, repeats, false⟩) hgroup
      hrest selfClosing rfl
  have hstop := (stops_slashPart selfClosing).append hrest.stops
  have hrepeat := readParts_repeatPart
    (n := ⟨name, text, attributes.map Attribute.reread, none, false⟩) h.repeats stamps hstop rfl hslash
  have hstop := (stops_repeatPart stamps repeats).append hstop
  rw [← List.append_assoc] at hstop
  have htext := readParts_textPart (n := ⟨name, none, attributes.map Attribute.reread, none, false⟩)
    h.text rfl hrepeat
  have hstop := (stops_textPart text).append hstop
  rw [← List.append_assoc] at hstop
  have hattributes : Cursor.Reads (readParts ⟨name, none, [], none, false⟩)
      ((Attribute.writeAll attributes).toList ++ _) _ rest :=
    readParts_writeAllFrom hstop (fun a ha => ⟨h.attributes a ha, hlegible a ha⟩) (by simp)
      (by simpa using h.distinct) (by simpa using htext)
  have hstop := (stops_writeAllFrom [] attributes).append hstop
  rw [← List.append_assoc] at hstop
  exact readParts_name h.name hstop rfl rfl hattributes

/-- **An element that is no group is read** where it was written. -/
theorem read_write {n : Node} (h : n.WellFormed) (hlegible : n.Legible) (hgroup : n.isGroup = false)
    (stamps : Bool) {rest : List Char} (hrest : ElementEnd rest) :
    Cursor.Reads read (n.write stamps).toList n.reread rest := by
  intro c hc
  obtain ⟨c', hparts, hc'⟩ := readParts_write h hlegible hgroup stamps hrest c hc
  refine ⟨c', ?_, hc'⟩
  rw [readParts_eq] at hparts
  rw [read]
  cases hpart : readPart {} c with
  | error failure => simp [hpart] at hparts
  | ok result =>
      obtain ⟨part, c₁⟩ := result
      rw [hpart] at hparts
      cases part with
      | absent =>
          obtain ⟨hempty, -⟩ : {} = n.reread ∧ c = c' := by simpa using hparts
          rw [← isGroup_reread, ← hempty] at hgroup
          exact absurd hgroup (by decide)
      | last n₁ => exact hparts
      | more n₁ => exact hparts

end Shorthand.Node
