import Shorthand.Proofs.Reader.Locality

/-!
# What refusals point at

A reader that gives up has gone ahead like one that succeeds, and its refusal shows at a place between
two characters of the same text. What stands there fits the cause (`Cause.Fits`):

* something that is missing shows at the end;
* something that is wrong shows in front of the character that is wrong.

A refusal is raised where the cursor is or at the end, and from there it is only passed on, so it is
enough to look at the few places where one is raised (`Failure.Shows.of_ahead`).
-/

namespace Shorthand

open Text

/-! ### Going ahead -/

namespace Cursor

/-- `c'` is the same place as `c`, or one further on in the same text. -/
def Ahead (c c' : Cursor) : Prop :=
  ∃ taken, c.rest = taken ++ c'.rest ∧ c'.before = taken.reverse ++ c.before

theorem Ahead.refl (c : Cursor) : c.Ahead c :=
  ⟨[], rfl, rfl⟩

theorem Ahead.trans {c c₁ c₂ : Cursor} (h : c.Ahead c₁) (h' : c₁.Ahead c₂) : c.Ahead c₂ := by
  obtain ⟨taken, hrest, hbefore⟩ := h
  obtain ⟨more, hrest', hbefore'⟩ := h'
  exact ⟨taken ++ more, by simp [hrest, hrest'], by simp [hbefore, hbefore']⟩

theorem Ahead.source_eq {c c' : Cursor} (h : c.Ahead c') : c'.source = c.source := by
  obtain ⟨taken, hrest, hbefore⟩ := h
  simp [source, hrest, hbefore]

theorem Ahead.pos_le {c c' : Cursor} (h : c.Ahead c') : c.pos ≤ c'.pos := by
  obtain ⟨taken, hrest, hbefore⟩ := h
  simp [pos, hbefore]

theorem ahead_past {c : Cursor} {taken rest : List Char} (h : c.rest = taken ++ rest) :
    c.Ahead (c.past taken rest) :=
  ⟨taken, h, rfl⟩

theorem ahead_run (p : Char → Bool) (c : Cursor) : c.Ahead (c.run p).2 :=
  ahead_past List.takeWhile_append_dropWhile.symm

theorem ahead_advance (c : Cursor) : c.Ahead c.advance := by
  unfold advance
  split
  · exact Ahead.refl c
  · next x rest hrest => exact ahead_past (by simp [hrest])

theorem ahead_of_eat? {p : Char → Bool} {c c' : Cursor} (h : c.eat? p = some c') : c.Ahead c' := by
  obtain ⟨-, rfl⟩ := eat?_some h
  exact ahead_advance c

theorem Passes.ahead {α : Type} {reader : Cursor → Except Failure (α × Cursor)}
    {E : List Char → Prop} {c c' : Cursor} {a : α} (h : Passes reader E c a c') : c.Ahead c' := by
  obtain ⟨taken, hrest, hbefore, -⟩ := h
  exact ⟨taken, hrest, hbefore⟩

end Cursor

/-! ### Refusals -/

/-- What stands where the cause shows: the end of the text for something that is missing, otherwise
the character to blame. Readers know nothing of groups. -/
def Cause.Fits : Cause → List Char → Prop
  | .openLiteral _, rest => rest = []
  | .openText, rest => rest = []
  | .openAttributeList, rest => rest = []
  | .noElement found, rest => ∃ x, found = some x ∧ rest.head? = some x
  | .straySlash, rest => rest.head? = some '/'
  | .noAttributeName, rest => ∃ x ∈ ['[', '\x7b', '\x7d', '='], rest.head? = some x
  | .strayGroupEnd, _ => False
  | .openGroup, _ => False

/-- The cause shows at the byte offset, which is a place between two characters. -/
def Cause.ShowsAt (cause : Cause) (text : List Char) (offset : Nat) : Prop :=
  ∃ before rest, text = before ++ rest ∧ offset = byteLength before ∧ cause.Fits rest

/-- A reader that was at `c` went ahead and gave up, for a cause that shows where it says. -/
structure Failure.Shows (failure : Failure) (c : Cursor) : Prop where
  ahead : c.Ahead failure.cursor
  place : failure.cause.ShowsAt c.source failure.offset

namespace Failure.Shows

variable {failure : Failure} {c c' : Cursor}

/-- A refusal is passed on as it is. -/
theorem of_ahead (h : failure.Shows c') (hc : c.Ahead c') : failure.Shows c := by
  refine ⟨hc.trans h.ahead, ?_⟩
  rw [← hc.source_eq]
  exact h.place

theorem of_fail {α : Type} {cause : Cause} (h : c.fail (α := α) cause = .error failure)
    (hfits : cause.Fits c.rest) : failure.Shows c := by
  cases h
  exact ⟨.refl c, c.before.reverse, c.rest, rfl, by simp [Cursor.pos], hfits⟩

theorem of_failAtEnd {α : Type} {cause : Cause} (h : c.failAtEnd (α := α) cause = .error failure)
    (hfits : cause.Fits []) : failure.Shows c := by
  cases h
  exact ⟨.refl c, c.source, [], by simp, rfl, hfits⟩

end Failure.Shows

/-! ### Literals and payloads -/

theorem Literal.shows_of_read {c : Cursor} {failure : Failure} (h : read c = .error failure) :
    failure.Shows c := by
  unfold read at h
  split at h
  · simp at h
  · next quote rest hrest =>
    split at h
    · split at h
      · exact .of_ahead (.of_failAtEnd h rfl) (Cursor.ahead_past (by simp [hrest]))
      · simp at h
    · simp at h

namespace Payload

/-- A search that comes to the end has passed everything. -/
theorem search_eq_unclosed {inner : Nat} {passed cs all : List Char}
    (h : search inner passed cs = .unclosed all) : all = cs.reverse ++ passed := by
  fun_induction search inner passed cs with
  | case1 => simpa [eq_comm] using h
  | case2 => simp at h
  | case3 inner passed c cs hq text rest hscan ih => simp [ih h, Literal.scan_eq_some hscan]
  | case4 inner passed cs _ ih => simp [ih h]
  | case5 => simp at h
  | case6 passed cs inner _ _ ih => simp [ih h]
  | case7 => simpa [eq_comm] using h
  | case8 inner passed d cs _ _ _ ih => simp [ih h]
  | case9 inner passed c cs _ _ _ _ ih => simp [ih h]

/-- A search that is stopped by a literal has passed what is in front of it, and its quote. -/
theorem search_eq_openLiteral {inner : Nat} {passed cs front rest : List Char} {quote : Char}
    (h : search inner passed cs = .openLiteral quote front rest) :
    front.reverse ++ rest = passed.reverse ++ cs := by
  fun_induction search inner passed cs with
  | case1 => simp at h
  | case2 inner passed c cs hq hscan =>
      cases h
      simp
  | case3 inner passed c cs hq text rest' hscan ih => simp [ih h, Literal.scan_eq_some hscan]
  | case4 inner passed cs _ ih => simp [ih h]
  | case5 => simp at h
  | case6 passed cs inner _ _ ih => simp [ih h]
  | case7 => simp at h
  | case8 inner passed d cs _ _ _ ih => simp [ih h]
  | case9 inner passed c cs _ _ _ _ ih => simp [ih h]

theorem shows_of_read {c : Cursor} {failure : Failure} (h : read c = .error failure) :
    failure.Shows c := by
  unfold read at h
  split at h
  · simp at h
  · next x rest hrest =>
    split at h
    · split at h
      · simp at h
      · next passed hsearch =>
        refine .of_ahead (.of_failAtEnd h rfl) (Cursor.ahead_past ?_)
        simp [hrest, search_eq_unclosed hsearch]
      · next quote passed rest' hsearch =>
        have hsplit := search_eq_openLiteral hsearch
        refine .of_ahead (.of_failAtEnd h rfl) (Cursor.ahead_past ?_)
        rw [hrest, List.cons_append, hsplit]
        rfl
    · simp at h

end Payload

/-! ### Attribute lists -/

namespace Attribute

theorem shows_of_readUnquotedFrom {token : String} {c : Cursor} {failure : Failure}
    (h : readUnquotedFrom token c = .error failure) : failure.Shows c := by
  fun_induction readUnquotedFrom token c with
  | case1 token c failure' hread =>
      cases h
      exact Payload.shows_of_read hread
  | case2 => simp at h
  | case3 token c text c₁ hread more ih =>
      have hrun := Cursor.ahead_run isUnquotedChar c₁
      exact (ih h).of_ahead ((Payload.passes_read hread).ahead.trans hrun)

theorem shows_of_readUnquoted {c : Cursor} {failure : Failure}
    (h : readUnquoted c = .error failure) : failure.Shows c := by
  simp only [readUnquoted] at h
  split at h
  · simp at h
  · exact (shows_of_readUnquotedFrom h).of_ahead (Cursor.ahead_run _ c)

theorem shows_of_readValue {c : Cursor} {failure : Failure} (h : readValue c = .error failure) :
    failure.Shows c := by
  simp only [readValue, bind, Except.bind, pure, Except.pure] at h
  split at h
  · next hlit =>
    cases h
    exact Literal.shows_of_read hlit
  next hlit =>
    split at h
    · simp at h
    · rw [Literal.eq_of_read_none hlit] at h
      split at h
      · next hpay =>
        cases h
        exact Payload.shows_of_read hpay
      next hpay =>
        split at h
        · simp at h
        · rw [Payload.eq_of_read_none hpay] at h
          split at h
          · next htok =>
            cases h
            exact shows_of_readUnquoted htok
          · simp at h

theorem shows_of_readNamed {written : WrittenName} {c : Cursor} {failure : Failure}
    (h : readNamed written c = .error failure) : failure.Shows c := by
  cases heat : c.eat? (· == '=') with
  | none => simp [readNamed, heat] at h
  | some c₁ =>
      rw [readNamed_eq_bind heat] at h
      cases hvalue : readValue c₁ with
      | error failure' =>
          rw [hvalue] at h
          cases h
          exact (shows_of_readValue hvalue).of_ahead (Cursor.ahead_of_eat? heat)
      | ok v => simp [hvalue, Except.map] at h

/-- What is read of a token stays part of it. -/
theorem ne_empty_of_readUnquotedFrom {token token' : String} {c c' : Cursor}
    (h : readUnquotedFrom token c = .ok (token', c')) (hne : token ≠ "") : token' ≠ "" := by
  fun_induction readUnquotedFrom token c with
  | case1 => simp at h
  | case2 token c c₁ hread =>
      cases h
      exact hne
  | case3 token c text c₁ hread more ih => exact ih h (by simp [hne])

/-- Where no token is, nothing is read, and the text ends or goes on with a character that cannot
stand in one. -/
theorem stops_of_readUnquoted {c c' : Cursor} (h : readUnquoted c = .ok ("", c')) :
    c' = c ∧ Stops isUnquotedChar c.rest := by
  simp only [readUnquoted] at h
  split at h
  · next hempty =>
    have hall : c.rest.dropWhile isUnquotedChar = c.rest := by
      have hnil : c.rest.takeWhile isUnquotedChar = [] := List.isEmpty_iff.1 hempty
      have hsplit := List.takeWhile_append_dropWhile (p := isUnquotedChar) (l := c.rest)
      rwa [hnil, List.nil_append] at hsplit
    have hstop : Stops isUnquotedChar c.rest := by
      rw [← hall]
      exact stops_dropWhile _ _
    refine ⟨?_, hstop⟩
    rw [← (Prod.mk.inj (Except.ok.inj h)).2]
    exact Cursor.skip_of_stops hstop
  · next hempty =>
    exact absurd rfl (ne_empty_of_readUnquotedFrom h (by simpa using hempty))

/-- What an entry cannot start with, white space, the end of the list and quotes apart. -/
theorem mem_of_isUnquotedChar {x : Char} (h : isUnquotedChar x = false)
    (hspace : isWhiteSpace x = false) (hclose : x ≠ ']') (hquote : Literal.isQuote x = false) :
    x ∈ ['[', '\x7b', '\x7d', '='] := by
  have hreserved : x ∈ reservedChars := by
    simpa [isUnquotedChar, hspace, hquote] using h
  simp only [reservedChars, List.mem_cons, List.not_mem_nil, or_false, hclose, false_or] at hreserved ⊢
  exact hreserved

/-- An entry fails with one of its readers, or where no entry can start. -/
theorem shows_of_readEntry {c : Cursor} {failure : Failure} (h : readEntry c = .error failure) :
    failure.Shows c := by
  refine .of_ahead ?_ (Cursor.ahead_run isWhiteSpace c)
  rw [← readEntry_skip] at h
  have hspace : Stops isWhiteSpace (c.skip isWhiteSpace).rest := stops_dropWhile _ _
  show failure.Shows (c.skip isWhiteSpace)
  generalize c.skip isWhiteSpace = c at h hspace
  simp only [readEntry, Cursor.skip_of_stops hspace, bind, Except.bind, pure, Except.pure] at h
  -- The failure is that of the first reader that gives one.
  split at h
  · simp at h
  next heat =>
  split at h
  · next hlit =>
    cases h
    exact Literal.shows_of_read hlit
  next hlit =>
  split at h
  · simp at h
  next c₁ =>
  obtain rfl := Literal.eq_of_read_none hlit
  split at h
  · next htok =>
    cases h
    exact shows_of_readUnquoted htok
  next v htok =>
  obtain ⟨token, c₂⟩ := v
  split at h
  · next hempty =>
    -- Neither an entry nor the end of the list can start here.
    obtain rfl : token = "" := hempty
    obtain ⟨rfl, hstop⟩ := stops_of_readUnquoted htok
    split at h
    · next hend => exact .of_fail h (by simpa [Cause.Fits, Cursor.atEnd] using hend)
    · next hend =>
      refine .of_fail h ?_
      obtain ⟨x, rest, hrest⟩ : ∃ x rest, c₂.rest = x :: rest :=
        List.exists_cons_of_ne_nil (by simpa [Cursor.atEnd] using hend)
      have hx : c₂.rest.head? = some x := by simp [hrest]
      refine ⟨x, mem_of_isUnquotedChar (hstop x hx) (hspace x hx) ?_
        (Literal.stops_of_read hlit x hx), hx⟩
      simpa using Cursor.stops_of_eat? heat x hx
  · split at h
    · simp at h
    · split at h
      · next hnamed =>
        cases h
        exact (shows_of_readNamed hnamed).of_ahead (passes_readUnquoted htok).ahead
      · simp at h

theorem shows_of_readEntries {found : List Attribute} {c : Cursor} {failure : Failure}
    (h : readEntries found c = .error failure) : failure.Shows c := by
  fun_induction readEntries found c with
  | case1 found c failure' hentry =>
      cases h
      exact shows_of_readEntry hentry
  | case2 => simp at h
  | case3 found c a c₁ hentry ih => exact (ih h).of_ahead (passes_readEntry hentry).ahead

theorem shows_of_readList {c : Cursor} {failure : Failure} (h : readList c = .error failure) :
    failure.Shows c := by
  simp only [readList, bind, Except.bind, pure, Except.pure] at h
  split at h
  · simp at h
  next heat =>
    split at h
    · next hentries =>
      cases h
      exact (shows_of_readEntries hentries).of_ahead (Cursor.ahead_of_eat? heat)
    · simp at h

end Attribute

/-! ### Elements and items -/

namespace Node

theorem shows_of_readPart {n : Node} {c : Cursor} {failure : Failure}
    (h : readPart n c = .error failure) : failure.Shows c := by
  unfold readPart at h
  split at h
  · simp at h
  · simp at h
  · simp at h
  · next rest hrest =>
    unfold readSlash at h
    split at h
    · exact .of_fail h (by simp [Cause.Fits, hrest])
    · split at h <;> simp at h
  · split at h
    · next hlist =>
      cases h
      exact Attribute.shows_of_readList hlist
    · simp at h
    · simp at h
  · split at h
    · next hpay =>
      cases h
      exact Payload.shows_of_read hpay
    · simp at h
    · simp at h
  · split at h <;> simp at h
  · split at h <;> simp at h

theorem shows_of_readParts {n : Node} {c : Cursor} {failure : Failure}
    (h : readParts n c = .error failure) : failure.Shows c := by
  fun_induction readParts n c with
  | case1 n c failure' hpart =>
      cases h
      exact shows_of_readPart hpart
  | case2 => simp at h
  | case3 => simp at h
  | case4 n c n₁ c₁ hpart ih => exact (ih h).of_ahead (passes_readPart hpart).ahead

/-- Only at the end of the text there is no character to blame. -/
theorem shows_of_read {c : Cursor} {failure : Failure} (h : read c = .error failure)
    (hend : c.rest ≠ []) : failure.Shows c := by
  unfold read at h
  split at h
  · next hpart =>
    cases h
    exact shows_of_readPart hpart
  · refine .of_fail h ?_
    obtain ⟨x, rest, hrest⟩ := List.exists_cons_of_ne_nil hend
    exact ⟨x, by simp [Cursor.peek, hrest], by simp [hrest]⟩
  · simp at h
  · next hpart => exact (shows_of_readParts h).of_ahead (passes_readPart hpart).ahead

end Node

theorem Item.shows_of_read {c : Cursor} {failure : Failure} (h : read c = .error failure)
    (hend : c.rest ≠ []) : failure.Shows c := by
  simp only [read, bind, Except.bind, pure, Except.pure] at h
  split at h
  · simp at h
  · simp at h
  · split at h
    · next hnode =>
      cases h
      exact Node.shows_of_read hnode hend
    · simp at h

end Shorthand
