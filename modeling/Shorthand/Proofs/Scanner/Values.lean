import Shorthand.Proofs.Scanner.Basic

/-!
# The readers by byte offsets

The readers of the notation once more, as scans. Here they count depths and widths by hand: the
closing quote is so many bytes behind the opening one, a payload ends one byte in front of the place
behind its brace, the depth of braces goes up and down. **Each of them is the reader of the same
name**: it is defined at every place of a cursor, and has the reader's outcome.
-/

namespace Shorthand

open Text Scanner

/-! ### What the readers take -/

/-- `c'` is behind the characters that come next at `c`. -/
def Cursor.Took (c : Cursor) (taken : List Char) (c' : Cursor) : Prop :=
  c.rest = taken ++ c'.rest ∧ c' = c.past taken c'.rest

theorem Cursor.Took.append {c c₁ c₂ : Cursor} {taken more : List Char} (h : c.Took taken c₁)
    (h' : c₁.Took more c₂) : c.Took (taken ++ more) c₂ := by
  obtain ⟨hrest, hpast⟩ := h
  obtain ⟨hrest', hpast'⟩ := h'
  refine ⟨by rw [hrest, hrest', List.append_assoc], ?_⟩
  rw [hpast', hpast, Cursor.past_past, Cursor.rest_past]

theorem Cursor.Took.source_eq {c c' : Cursor} {taken : List Char} (h : c.Took taken c') :
    c'.source = c.source := by
  rw [h.2]
  exact Cursor.source_past h.1

theorem Cursor.Took.pos_eq {c c' : Cursor} {taken : List Char} (h : c.Took taken c') :
    c'.pos = c.pos + byteLength taken := by
  rw [h.2, Cursor.pos_past]

theorem Cursor.Took.pos_ne {c c' : Cursor} {token : String} (h : c.Took token.toList c')
    (hne : token ≠ "") : c'.pos ≠ c.pos := by
  have hlength : byteLength token.toList ≠ 0 := by simpa [byteLength_eq_zero] using hne
  have hpos := h.pos_eq
  omega

theorem Cursor.took_run (p : Char → Bool) (c : Cursor) : c.Took (c.run p).1 (c.run p).2 :=
  ⟨List.takeWhile_append_dropWhile.symm, rfl⟩

theorem Payload.took_of_read {c c' : Cursor} {text : String} (h : read c = .ok (some text, c')) :
    c.Took ('\x7b' :: text.toList ++ ['\x7d']) c' := by
  unfold read at h
  split at h
  · simp at h
  · next x rest hrest =>
    split at h
    · next hx =>
      split at h
      · next text' rest' hsearch =>
        obtain ⟨body, hbody, hcs⟩ := search_eq_closed hsearch
        obtain ⟨htext, rfl⟩ := Prod.mk.inj (Except.ok.inj h)
        obtain rfl : String.ofList text' = text := Option.some.inj htext
        obtain rfl : text' = body := by simpa using hbody
        exact ⟨by simp [hrest, hx, hcs], by simp [hx]⟩
      · simp [Cursor.failAtEnd] at h
      · simp [Cursor.failAtEnd] at h
    · simp at h

/-- The outcome of a search from the start of a text. -/
def Payload.Search.result (c : Cursor) : Search → Except Failure (Option String × Cursor)
  | .closed text rest => .ok (some (String.ofList text), c.past (text ++ ['\x7d']) rest)
  | .unclosed passed => (c.past passed.reverse []).failAtEnd .openText
  | .openLiteral quote passed rest => (c.past passed.reverse rest).failAtEnd (.openLiteral quote)

theorem Payload.read_eq_result {c : Cursor} {rest : List Char} (h : c.rest = '\x7b' :: rest) :
    read c = (search 0 [] rest).result (c.past ['\x7b'] rest) := by
  simp only [read, h, if_true]
  split
  · next hsearch => simp [hsearch, Search.result, Cursor.past_past]
  · next hsearch => simp [hsearch, Search.result, Cursor.past_past]
  · next hsearch => simp [hsearch, Search.result, Cursor.past_past]

theorem Attribute.readEntry_of_rest_nil {c : Cursor} (h : c.rest = []) :
    readEntry c = c.fail .openAttributeList := by
  obtain ⟨before, rest, mark⟩ := c
  obtain rfl : rest = [] := h
  rfl

namespace Scan

/-! ### Literals -/

/-- The offset of the closing quote in the characters behind an opening one, the first of which has
the given offset. A backslash protects the next character. -/
def closingQuote? (quote : Char) (offset : Nat) : List Char → Option Nat
  | [] => none
  | [x] => if x ≠ '\\' ∧ x = quote then some offset else none
  | x :: y :: cs =>
    if x = '\\' then closingQuote? quote (offset + x.utf8Size + y.utf8Size) cs
    else if x = quote then some offset
    else closingQuote? quote (offset + x.utf8Size) (y :: cs)

/-- Goes behind the closing quote, from a place behind the opening one; stays if there is none. -/
def skipQuoted (quote : Char) : Scan Bool := do
  match closingQuote? quote 0 (← remainder) with
  | none => return false
  | some offset =>
    skipBytes (offset + quote.utf8Size)
    return true

/-- Reads on in a literal behind its opening quote. -/
def readQuotedFrom (quote : Char) : Scan (Option String) := do
  let start ← pos
  if ← skipQuoted quote then
    let stop ← sub (← pos) quote.utf8Size
    return some (String.ofList (← slice start stop))
  else failAt (.openLiteral quote) (byteLength (← get).source)

/-- Reads a literal, if the place is in front of a quote. -/
def readQuoted : Scan (Option String) := do
  match ← peek with
  | none => return none
  | some quote =>
    if Literal.isQuote quote then
      let _ ← advance
      readQuotedFrom quote
    else return none

theorem closingQuote?_eq (quote : Char) (text cs : List Char) :
    closingQuote? quote (byteLength text) cs =
      (Literal.scanFrom quote text cs).map fun found => byteLength found.1 := by
  fun_induction Literal.scanFrom quote text cs with
  | case1 => rfl
  | case2 text c hc => simp [closingQuote?, if_pos hc]
  | case3 text c hc => simp [closingQuote?, hc]
  | case4 text d cs ih =>
      rw [closingQuote?, if_pos rfl, ← ih]
      simp only [byteLength_cons]
      congr 1
      omega
  | case5 text d cs hc => simp [closingQuote?, hc]
  | case6 text c d cs hc hq ih =>
      rw [closingQuote?, if_neg hc, if_neg hq, ← ih, byteLength_cons, Nat.add_comm]

theorem run_skipQuoted (quote : Char) (c : Cursor) :
    (skipQuoted quote).run (ofCursor c) =
      some (.ok (Literal.skip? quote c).isSome, ofCursor ((Literal.skip? quote c).getD c)) := by
  have hclosing : closingQuote? quote 0 c.rest =
    (Literal.scan quote c.rest).map fun found => byteLength found.1 := closingQuote?_eq quote [] c.rest
  rw [skipQuoted, run_bind (run_remainder c), hclosing, Literal.skip?]
  cases hscan : Literal.scan quote c.rest with
  | none => rfl
  | some found =>
      obtain ⟨text, rest⟩ := found
      show (skipBytes (byteLength text + quote.utf8Size) >>= _).run _ = _
      rw [run_bind (run_skipBytes (text ++ [quote]) rest (by simp [Literal.scan_eq_some hscan])
        (by simp))]
      rfl

theorem run_readQuotedFrom_none {quote : Char} {c : Cursor} (h : Literal.scan quote c.rest = none) :
    (readQuotedFrom quote).run (ofCursor c) =
      some (ofResult (c.failAtEnd (.openLiteral quote))) := by
  rw [readQuotedFrom, run_bind (run_pos _), run_bind (run_skipQuoted quote c), Literal.skip?, h]
  rfl

theorem run_readQuotedFrom_some {quote : Char} {c : Cursor} {text rest : List Char}
    (h : Literal.scan quote c.rest = some (text, rest)) : (readQuotedFrom quote).run (ofCursor c) =
      some (.ok (some (String.ofList text)), ofCursor (c.past (text ++ [quote]) rest)) := by
  have hsplit : c.rest = text ++ (quote :: rest) := Literal.scan_eq_some h
  have hsource : (c.past (text ++ [quote]) rest).source = c.source :=
    Cursor.source_past (by simp [hsplit])
  have hend : (c.past (text ++ [quote]) rest).pos = c.pos + byteLength text + quote.utf8Size := by
    simp [Cursor.pos_past, Nat.add_assoc]
  rw [readQuotedFrom, run_bind (run_pos _), run_bind (run_skipQuoted quote c), Literal.skip?, h]
  show (pos >>= _).run (ofCursor (c.past (text ++ [quote]) rest)) = _
  rw [run_bind (run_pos _), hend, run_bind (run_sub _ _ _)]
  exact run_bind (run_slice hsplit hsource rfl)

theorem run_readQuoted (c : Cursor) :
    readQuoted.run (ofCursor c) = some (ofResult (Literal.read c)) := by
  rw [readQuoted, run_bind (run_peek c), Literal.read, Cursor.peek]
  cases hrest : c.rest with
  | nil => rfl
  | cons quote rest =>
      by_cases hq : Literal.isQuote quote
      · have hadvance : c.advance = c.past [quote] rest := by simp [Cursor.advance, hrest]
        simp only [List.head?_cons, hq, if_true]
        rw [run_bind (run_advance c), hadvance]
        cases hscan : Literal.scan quote rest with
        | none => exact run_readQuotedFrom_none hscan
        | some found =>
            rw [run_readQuotedFrom_some hscan, Cursor.past_past]
            rfl
      · simp only [List.head?_cons, hq]
        rfl

/-! ### Payloads -/

/-- What a character does in a payload whose text starts at the given offset, inside of so many
braces: the number of braces behind it, or the text if the last of them was closed. -/
def afterChar (start depth : Nat) (x : Char) : Scan (Nat ⊕ Option String) := do
  if x = '\x7b' then return .inl (depth + 1)
  else if x = '\x7d' then
    let depth ← sub depth 1
    if depth = 0 then
      let stop ← sub (← pos) 1
      return .inr (some (String.ofList (← slice start stop)))
    else return .inl depth
  else if x = '\\' then
    let _ ← advance
    return .inl depth
  else return .inl depth

/-- One step in a payload, over a literal or a character. -/
def textStep (start depth : Nat) : Scan (Nat ⊕ Option String) := do
  match ← readQuoted with
  | some _ => return .inl depth
  | none =>
    match ← advance with
    | some x => afterChar start depth x
    | none => return .inl depth

/-- A step in a payload, which has to be closed in front of the end. -/
def textStepInside (start depth : Nat) : Scan (Nat ⊕ Option String) := do
  if ← atEnd then fail .openText else textStep start depth

/-- Reads on in a payload. -/
noncomputable def readTextFrom (start depth : Nat) : Scan (Option String) :=
  loop (textStepInside start) depth

/-- Reads a payload, if the place is in front of an opening brace. -/
noncomputable def readText : Scan (Option String) := do
  if (← peek) = some '\x7b' then readTextFrom ((← pos) + 1) 0 else return none

/-- A step over anything but a literal. -/
theorem run_textStep_of_advance {c : Cursor} {x : Char} {rest : List Char}
    (hrest : c.rest = x :: rest) (hx : ¬Literal.isQuote x) {start depth : Nat}
    {next : Nat ⊕ Option String} {s : Scanner}
    (h : (afterChar start depth x).run (ofCursor (c.past [x] rest)) = some (.ok next, s)) :
    (textStep start depth).run (ofCursor c) = some (.ok next, s) := by
  have hread := run_readQuoted c
  rw [show Literal.read c = .ok (none, c) by simp [Literal.read, hrest, hx]] at hread
  have hadvance := run_advance c
  rw [Cursor.peek, Cursor.advance, hrest] at hadvance
  rw [textStep, run_bind hread]
  exact (run_bind hadvance).trans h

theorem run_textStepInside {c : Cursor} (hrest : c.rest ≠ []) (start depth : Nat) :
    (textStepInside start depth).run (ofCursor c) = (textStep start depth).run (ofCursor c) := by
  have hend : c.atEnd = false := by simpa [Cursor.atEnd] using hrest
  rw [textStepInside, run_bind (run_atEnd c), hend]
  rfl

theorem run_readTextFrom_end {c : Cursor} (h : c.rest = []) (start depth : Nat) :
    (readTextFrom start depth).run (ofCursor c) = some (ofResult (c.failAtEnd .openText)) := by
  have hend : c.atEnd = true := by simp [Cursor.atEnd, h]
  refine run_loop_error ?_
  rw [textStepInside, run_bind (run_atEnd c), hend]
  show (fail .openText).run _ = some (ofResult (c.failAtEnd .openText : Except Failure (_ × Cursor)))
  rw [run_fail, Cursor.fail_eq_failAtEnd _ h]

/-- A step leads on. -/
theorem run_readTextFrom {c : Cursor} (hrest : c.rest ≠ []) {start depth depth' : Nat} {s : Scanner}
    (h : (textStep start depth).run (ofCursor c) = some (.ok (.inl depth'), s)) :
    (readTextFrom start depth).run (ofCursor c) = (readTextFrom start depth').run s :=
  run_loop_next ((run_textStepInside hrest start depth).trans h)

/-- A step over a character is a step of the search. -/
theorem run_readTextFrom_char {c : Cursor} {passed cs : List Char} {x : Char}
    (hx : ¬Literal.isQuote x) {start depth depth' : Nat} {s : Scanner}
    (h : (afterChar start depth x).run (ofCursor (c.past (x :: passed).reverse cs)) =
      some (.ok (.inl depth'), s)) :
    (readTextFrom start depth).run (ofCursor (c.past passed.reverse (x :: cs))) =
      (readTextFrom start depth').run s := by
  rw [← Cursor.advance_past] at h
  exact run_readTextFrom (by simp) (run_textStep_of_advance rfl hx h)

theorem run_afterChar_escape (start depth : Nat) (c : Cursor) :
    (afterChar start depth '\\').run (ofCursor c) = some (.ok (.inl depth), ofCursor c.advance) := by
  show (advance >>= _).run _ = _
  exact run_bind (run_advance c)

/-- The brace that closes a payload is one byte wide. -/
theorem run_afterChar_close {c : Cursor} {text rest : List Char} (h : c.rest = text ++ '\x7d' :: rest) :
    (afterChar c.pos 1 '\x7d').run (ofCursor (c.past (text ++ ['\x7d']) rest)) =
      some (.ok (.inr (some (String.ofList text))), ofCursor (c.past (text ++ ['\x7d']) rest)) := by
  have hsource : (c.past (text ++ ['\x7d']) rest).source = c.source :=
    Cursor.source_past (by simp [h])
  have hend : (c.past (text ++ ['\x7d']) rest).pos = c.pos + byteLength text + 1 := by
    rw [Cursor.pos_past, byteLength_append, Nat.add_assoc]
    rfl
  show (sub (0 + 1) 1 >>= _).run _ = _
  rw [run_bind (run_sub 0 1 _)]
  show (pos >>= _).run _ = _
  rw [run_bind (run_pos _), hend, run_bind (run_sub _ _ _)]
  exact run_bind (run_slice h hsource rfl)

/-- **A search by depth is a search**: inside of one brace more, the scan finds what the search
finds. -/
theorem run_readTextFrom_search (c : Cursor) (inner : Nat) (passed cs : List Char)
    (hrest : c.rest = passed.reverse ++ cs) :
    (readTextFrom c.pos (inner + 1)).run (ofCursor (c.past passed.reverse cs)) =
      some (ofResult ((Payload.search inner passed cs).result c)) := by
  fun_induction Payload.search inner passed cs with
  | case1 inner passed => exact run_readTextFrom_end rfl _ _
  | case2 inner passed x cs hq hscan =>
      -- A literal without an end: both give up at the end of the text.
      have hread := run_readQuoted (c.past passed.reverse (x :: cs))
      rw [Literal.read] at hread
      simp only [Cursor.rest_past, hq, if_true, hscan, Cursor.past_past] at hread
      have hstep : (textStep c.pos (inner + 1)).run (ofCursor (c.past passed.reverse (x :: cs))) = _ :=
        run_bind_error hread
      refine (run_loop_error ((run_textStepInside (by simp) _ _).trans hstep)).trans ?_
      simp [Payload.Search.result, Cursor.failAtEnd, ofResult]
  | case3 inner passed x cs hq text rest hscan ih =>
      -- A literal is passed over as a whole.
      have hread := run_readQuoted (c.past passed.reverse (x :: cs))
      rw [Literal.read] at hread
      simp only [Cursor.rest_past, hq, if_true, hscan, Cursor.past_past] at hread
      have hstep : (textStep c.pos (inner + 1)).run (ofCursor (c.past passed.reverse (x :: cs))) = _ :=
        run_bind hread
      rw [run_readTextFrom (by simp) hstep]
      simpa using ih (by simp [hrest, Literal.scan_eq_some hscan])
  | case4 inner passed cs hq ih =>
      rw [run_readTextFrom_char hq rfl]
      exact ih (by simp [hrest])
  | case5 passed cs hq hopen =>
      -- The outermost brace is closed: the text up to it is sliced.
      have hchar := run_afterChar_close hrest
      rw [← List.reverse_cons, ← Cursor.advance_past] at hchar
      have hstep := run_textStep_of_advance rfl hq hchar
      refine (run_loop_done ((run_textStepInside (by simp) _ _).trans hstep)).trans ?_
      simp [Payload.Search.result, Cursor.advance_past, ofResult]
  | case6 passed cs inner hq hopen ih =>
      rw [run_readTextFrom_char hq rfl]
      exact ih (by simp [hrest])
  -- A backslash takes the next character with it, if there is one.
  | case7 inner passed hq hopen hclose =>
      rw [run_readTextFrom_char hq (run_afterChar_escape _ _ _)]
      exact run_readTextFrom_end rfl _ _
  | case8 inner passed d cs hq hopen hclose ih =>
      rw [run_readTextFrom_char hq (run_afterChar_escape _ _ _), Cursor.advance_past]
      exact ih (by simp [hrest])
  | case9 inner passed x cs hq hopen hclose hesc ih =>
      have hchar : (afterChar c.pos (inner + 1) x).run (ofCursor (c.past (x :: passed).reverse cs)) =
          some (.ok (.inl (inner + 1)), ofCursor (c.past (x :: passed).reverse cs)) := by
        simp [afterChar, hopen, hclose, hesc]
      rw [run_readTextFrom_char hq hchar]
      exact ih (by simp [hrest])

theorem run_readText (c : Cursor) : readText.run (ofCursor c) = some (ofResult (Payload.read c)) := by
  rw [readText, run_bind (run_peek c), Cursor.peek]
  cases hrest : c.rest with
  | nil => simp [Payload.read, hrest, ofResult]
  | cons x rest =>
      by_cases hx : x = '\x7b'
      · subst hx
        have hopen := run_textStep_of_advance hrest (by decide)
          (show (afterChar (c.pos + 1) 0 '\x7b').run _ = some (.ok (.inl 1), _) from rfl)
        have hsearch := run_readTextFrom_search (c.past ['\x7b'] rest) 0 [] rest rfl
        rw [show (c.past ['\x7b'] rest).pos = c.pos + 1 from Cursor.pos_past c _ _] at hsearch
        simp only [List.head?_cons, if_true]
        rw [run_bind (run_pos _), run_readTextFrom (by simp [hrest]) hopen,
          Payload.read_eq_result hrest, ← hsearch]
        rfl
      · simp [Payload.read, hrest, hx, ofResult]

/-! ### Attribute lists -/

/-- Reads on in an unquoted token that starts at the given offset, up to the end of a payload in it or
up to its own end. -/
noncomputable def unquotedStep (start : Nat) : Scan (Unit ⊕ String) := do
  eatWhile Attribute.isUnquotedChar
  let here ← pos
  if here = start ∨ (← peek) ≠ some '\x7b' then return .inr (String.ofList (← slice start here))
  else
    let _ ← readText
    return .inl ()

/-- Reads on in an unquoted token that starts at the given offset. -/
noncomputable def readUnquotedFrom (start : Nat) : Scan String :=
  loop (fun _ => unquotedStep start) ()

/-- Reads an unquoted token, which is empty if no unquoted character is next. -/
noncomputable def readUnquoted : Scan String := do
  readUnquotedFrom (← pos)

/-- What stands behind a `=`: the value and, around an expression, its braces. -/
noncomputable def readValue : Scan (String × Bool) := do
  match ← readQuoted with
  | some text => return (text, false)
  | none =>
    match ← readText with
    | some text => return (text, true)
    | none => return (← readUnquoted, false)

/-- Reads what follows a name: its value, if there is a `=`. -/
noncomputable def readNamed (written : Attribute.WrittenName) : Scan Attribute := do
  let name := some (String.ofList written.name)
  let options : Attribute.Options := { boolean := written.boolean, implied := written.implied }
  if ← eat (· == '=') then
    let (value, expression) ← readValue
    if expression then
      let options := { options with before := some "\x7b", after := some "\x7d" }
      return { Attribute.make name (some value) with options }
    else return { Attribute.make name (some value) with options }
  else return { Attribute.make name none with options }

/-- Reads the next entry of a list, or its end. -/
noncomputable def readEntry : Scan (Option Attribute) := do
  eatWhile isWhiteSpace
  if ← eat (· == ']') then return none
  else
    match ← readQuoted with
    | some text => return some (Attribute.anonymous text)
    | none =>
      let token ← readUnquoted
      if token = "" then
        if ← atEnd then fail .openAttributeList else fail .noAttributeName
      else
        match Attribute.writtenName? token.toList with
        | none => return some (Attribute.anonymous token)
        | some written => return some (← readNamed written)

/-- Reads one more entry, or the end of the list, behind the entries in `found` (last first). -/
noncomputable def entriesStep (found : List Attribute) : Scan (List Attribute ⊕ List Attribute) := do
  if ← atEnd then fail .openAttributeList
  else
    match ← readEntry with
    | none => return .inr found.reverse
    | some a => return .inl (a :: found)

/-- Reads the entries up to the end of the list, behind those in `found` (last first). -/
noncomputable def readEntries (found : List Attribute) : Scan (List Attribute) :=
  loop entriesStep found

/-- Reads an attribute list, if the place is in front of an opening bracket. -/
noncomputable def readAttributes : Scan (Option (List Attribute)) := do
  if ← eat (· == '[') then return some (← readEntries []) else return none

/-- Behind a run, only an opening brace leads on. -/
theorem run_unquotedStep {start : Nat} {c c' : Cursor} (hskip : c.skip Attribute.isUnquotedChar = c')
    (hmoved : c'.pos ≠ start) :
    (unquotedStep start).run (ofCursor c) =
      if c'.peek = some '\x7b' then (readText >>= fun _ => return .inl ()).run (ofCursor c')
      else (return .inr (String.ofList (← slice start c'.pos)) : Scan (Unit ⊕ String)).run
        (ofCursor c') := by
  rw [unquotedStep, run_bind (run_eatWhile _ _), hskip, run_bind (run_pos _), run_bind (run_peek _)]
  by_cases hpeek : c'.peek = some '\x7b'
  · rw [if_neg (by simp [hmoved, hpeek]), if_pos hpeek]
  · rw [if_pos (Or.inr hpeek), if_neg hpeek]

/-- A token that has been read up to a place is read on in the same way, also from in front of the run
that ends there. -/
theorem run_readUnquotedFrom {c c' : Cursor} {token : String} (htook : c.Took token.toList c')
    (hne : token ≠ "") : ∀ c₀ : Cursor, c₀.skip Attribute.isUnquotedChar = c' →
      (readUnquotedFrom c.pos).run (ofCursor c₀) =
        some (ofResult (Attribute.readUnquotedFrom token c')) := by
  fun_induction Attribute.readUnquotedFrom token c' with
  | case1 token c' failure hread =>
      intro c₀ hskip
      have hpeek : c'.peek = some '\x7b' := by
        by_contra hnot
        simp [Payload.read_none hnot] at hread
      have htext := run_readText c'
      rw [hread] at htext
      have hstep := run_unquotedStep hskip (htook.pos_ne hne)
      rw [if_pos hpeek, run_bind_error htext] at hstep
      exact run_loop_error hstep
  | case2 token c' c₁ hread =>
      -- Without a brace the token ends here, and is sliced.
      intro c₀ hskip
      have hpeek : c'.peek ≠ some '\x7b' := by
        intro hsome
        exact absurd (Payload.stops_of_read hread _ hsome) (by decide)
      have hstep := run_unquotedStep hskip (htook.pos_ne hne)
      rw [if_neg hpeek, run_bind (run_slice htook.1 htook.source_eq htook.pos_eq)] at hstep
      refine (run_loop_done hstep).trans ?_
      simp [ofResult]
  | case3 token c' text c₁ hread more ih =>
      -- The run behind the payload is taken by the next round.
      intro c₀ hskip
      have hpeek : c'.peek = some '\x7b' := by
        by_contra hnot
        simp [Payload.read_none hnot] at hread
      have htext := run_readText c'
      rw [hread] at htext
      have hstep := run_unquotedStep hskip (htook.pos_ne hne)
      rw [if_pos hpeek, run_bind htext] at hstep
      have hmore := (htook.append (Payload.took_of_read hread)).append
        (Cursor.took_run Attribute.isUnquotedChar c₁)
      exact (run_loop_next hstep).trans (ih (by simpa using hmore) (by simp [hne]) c₁ rfl)

theorem run_readUnquoted (c : Cursor) :
    readUnquoted.run (ofCursor c) = some (ofResult (Attribute.readUnquoted c)) := by
  have htook := Cursor.took_run Attribute.isUnquotedChar c
  rw [readUnquoted, run_bind (run_pos _)]
  simp only [Attribute.readUnquoted]
  split
  · next hempty =>
    have hpos : (c.skip Attribute.isUnquotedChar).pos = c.pos := by
      rw [List.isEmpty_iff.1 hempty] at htook
      exact htook.pos_eq
    refine run_loop_done ?_
    rw [unquotedStep, run_bind (run_eatWhile _ _), run_bind (run_pos _), run_bind (run_peek _),
      if_pos (Or.inl hpos), hpos]
    exact run_bind (run_slice (List.nil_append _).symm htook.source_eq rfl)
  · next hempty =>
    refine run_readUnquotedFrom ?_ (by simpa using hempty) c rfl
    rw [String.toList_ofList]
    exact htook

theorem run_readValue (c : Cursor) :
    readValue.run (ofCursor c) = some (ofResult (Attribute.readValue c)) := by
  refine run_bind_ofResult (run_readQuoted c) fun text? c₁ _ => ?_
  cases text? with
  | some text => rfl
  | none =>
      refine run_bind_ofResult (run_readText c₁) fun text? c₂ _ => ?_
      cases text? with
      | some text => rfl
      | none => exact run_bind_ofResult (run_readUnquoted c₂) fun text c₃ _ => rfl

theorem run_readNamed (written : Attribute.WrittenName) (c : Cursor) :
    (readNamed written).run (ofCursor c) = some (ofResult (Attribute.readNamed written c)) := by
  rw [readNamed, run_bind (run_eat _ c), Attribute.readNamed]
  cases heat : c.eat? (· == '=') with
  | none => rfl
  | some c₁ =>
      refine run_bind_ofResult (run_readValue c₁) fun value c₂ _ => ?_
      obtain ⟨value, expression⟩ := value
      cases expression <;> rfl

theorem run_readEntry (c : Cursor) :
    readEntry.run (ofCursor c) = some (ofResult (Attribute.readEntry c)) := by
  simp only [readEntry, Attribute.readEntry]
  rw [run_bind (run_eatWhile _ c)]
  generalize c.skip isWhiteSpace = c
  rw [run_bind (run_eat _ c)]
  cases heat : c.eat? (· == ']') with
  | some c₁ => rfl
  | none =>
      refine run_bind_ofResult (run_readQuoted c) fun text? c₁ _ => ?_
      cases text? with
      | some text => rfl
      | none =>
          refine run_bind_ofResult (run_readUnquoted c₁) fun token c₂ _ => ?_
          by_cases htoken : token = ""
          · simp only [htoken, if_true]
            rw [run_bind (run_atEnd c₂)]
            cases c₂.atEnd <;> rfl
          · simp only [htoken, if_false]
            cases hwritten : Attribute.writtenName? token.toList with
            | none => rfl
            | some written => exact run_bind_ofResult (run_readNamed written c₂) fun a c₃ _ => rfl

/-- At the end, to look for an entry comes to the same as to stop at once. -/
theorem run_entriesStep (found : List Attribute) (c : Cursor) :
    (entriesStep found).run (ofCursor c) = (readEntry >>= fun entry => match entry with
      | none => return .inr found.reverse
      | some a => return .inl (a :: found)).run (ofCursor c) := by
  rw [entriesStep, run_bind (run_atEnd c)]
  cases hend : c.atEnd with
  | false => rfl
  | true =>
      have hentry := run_readEntry c
      rw [Attribute.readEntry_of_rest_nil (List.isEmpty_iff.1 hend)] at hentry
      rw [run_bind_error hentry]
      rfl

theorem run_readEntries (found : List Attribute) (c : Cursor) :
    (readEntries found).run (ofCursor c) = some (ofResult (Attribute.readEntries found c)) := by
  have hentry := run_readEntry c
  have hstep := run_entriesStep found c
  fun_induction Attribute.readEntries found c with
  | case1 found c failure hread =>
      rw [hread] at hentry
      exact run_loop_error (hstep.trans (run_bind_error hentry))
  | case2 found c c₁ hread =>
      rw [hread] at hentry
      exact run_loop_done (hstep.trans (run_bind hentry))
  | case3 found c a c₁ hread ih =>
      rw [hread] at hentry
      refine (run_loop_next (hstep.trans (run_bind hentry))).trans ?_
      exact ih (run_readEntry c₁) (run_entriesStep _ c₁)

theorem run_readAttributes (c : Cursor) :
    readAttributes.run (ofCursor c) = some (ofResult (Attribute.readList c)) := by
  rw [readAttributes, run_bind (run_eat _ c), Attribute.readList]
  cases heat : c.eat? (· == '[') with
  | none => rfl
  | some c₁ => exact run_bind_ofResult (run_readEntries [] c₁) fun list c₂ _ => rfl

end Scan

end Shorthand
