import Mathlib.Data.List.DropRight
import Shorthand.Fault.Report
import Shorthand.Proofs.Snippet.Terminal
import Shorthand.Proofs.Tree.Faults

/-!
# What a report marks

A report is right when it marks what the fault is about (`Terminal.Marks`): what stands behind as
many **bytes** as the offset says. A renderer counts **characters**, so the report of an
abbreviation on one line is right if and only if the characters in front of the fault take one byte
each, apart from characters without columns, which leave no room for a mark (`report_marks_iff`).
-/

namespace Shorthand

open Text Terminal

/-! ### Bytes and characters -/

namespace Text

theorem length_le_byteLength (cs : List Char) : cs.length ≤ byteLength cs := by
  induction cs with
  | nil => exact Nat.le_refl _
  | cons c cs ih =>
      have hpos := c.utf8Size_pos
      rw [List.length_cons, byteLength_cons]
      omega

/-- Bytes and characters count the same where each character takes one byte. -/
theorem byteLength_eq_length_iff {cs : List Char} :
    byteLength cs = cs.length ↔ ∀ c ∈ cs, c.utf8Size = 1 := by
  induction cs with
  | nil => simp
  | cons c cs ih =>
      have hpos := c.utf8Size_pos
      have hle := length_le_byteLength cs
      rw [byteLength_cons, List.length_cons, List.forall_mem_cons, ← ih]
      omega

theorem trimEnd_trim (cs : List Char) : trimEnd (trim cs) = trim cs :=
  List.rdropWhile_idempotent isWhiteSpace (cs.dropWhile isWhiteSpace)

theorem mem_of_mem_trim {c : Char} {cs : List Char} (h : c ∈ trim cs) : c ∈ cs := by
  rw [trim, trimEnd, List.mem_reverse] at h
  have hend := List.mem_reverse.1 ((List.dropWhile_sublist isWhiteSpace).mem h)
  exact (List.dropWhile_sublist isWhiteSpace).mem hend

theorem OnOneLine.trim {cs : List Char} (h : OnOneLine cs) : OnOneLine (trim cs) :=
  fun c hc => h c (mem_of_mem_trim hc)

end Text

namespace Fault

/-! ### The message and the remark -/

theorem hexDigit_ne_lineEnd {n : Nat} (h : n < 16) : hexDigit n ≠ '\n' := by
  have table : ∀ m : Fin 16, hexDigit m ≠ '\n' := by decide
  exact table ⟨n, h⟩

theorem not_mem_hexDigits (n : Nat) : '\n' ∉ hexDigits n := by
  fun_induction hexDigits n with
  | case1 n hlt => simpa using (hexDigit_ne_lineEnd hlt).symm
  | case2 n hge ih =>
      have hlast := hexDigit_ne_lineEnd (Nat.mod_lt n (show 16 > 0 by decide))
      simpa [ih] using hlast.symm

theorem not_mem_escapeChar (c : Char) : '\n' ∉ escapeChar c := by
  unfold escapeChar
  split_ifs with hnull htab hreturn hend hquote hback hprint
  · decide
  · decide
  · decide
  · decide
  · decide
  · decide
  · simpa using Ne.symm hend
  · simp [not_mem_hexDigits]

theorem lineEnds_charLiteral (c : Char) : lineEnds (charLiteral c) = 0 := by
  simpa [lineEnds, charLiteral, List.count_eq_zero] using not_mem_escapeChar c

theorem lineEnds_message_le (cause : Cause) : lineEnds cause.message ≤ 1 := by
  cases cause with
  | noElement found =>
      cases found with
      | none => decide +kernel
      | some c =>
        have hmessage : (Cause.noElement (some c)).message =
            "Unable to consume abbreviation node, unexpected " ++ charLiteral c := rfl
        rw [hmessage, lineEnds_append, lineEnds_charLiteral]
        decide +kernel
  | openLiteral quote =>
      have hmessage : (Cause.openLiteral quote).message =
          "Unable to find matching " ++ String.singleton quote ++ " for string literal" := rfl
      have hquote : lineEnds (String.singleton quote) ≤ 1 := by
        simpa [lineEnds] using List.count_le_length (a := '\n') (l := [quote])
      have htext : lineEnds "Unable to find matching " = 0 ∧ lineEnds " for string literal" = 0 := by
        decide +kernel
      rw [hmessage, lineEnds_append, lineEnds_append, htext.1, htext.2, Nat.zero_add]
      exact hquote
  | _ => decide +kernel

theorem lineEnds_remark (cause : Cause) : lineEnds cause.remark = 0 := by
  cases cause with
  | noElement found => exact (by decide +kernel : lineEnds "expected element, group or text" = 0)
  | openLiteral quote => exact (by decide +kernel : lineEnds "missing closing quote" = 0)
  | _ => decide +kernel

/-- Nothing is marked by the message alone. -/
theorem not_marks_headline (f : Fault) (file : String) (columns : Char → Nat) (front back : List Char) :
    ¬Marks columns (f.snippet file).headline front back := by
  rintro ⟨above, below, hbelow, hdrawing⟩
  have hend : lineEnds "\n" = 1 := rfl
  have hstart : lineEnds "Error:" + lineEnds " " = 0 := rfl
  have hfew : lineEnds (f.snippet file).message ≤ 1 := lineEnds_message_le f.cause
  have hcount := congrArg lineEnds hdrawing
  rw [Snippet.headline, lineEnds_append, lineEnds_append, lineEnds_append, lineEnds_red] at hcount
  simp only [lineEnds_append, hbelow, hend] at hcount
  omega

/-! ### Where the mark is -/

/-- The fault is between `front` and `back`, which make up its text. -/
structure Between (f : Fault) (front back : List Char) : Prop where
  input : f.input.toList = front ++ back
  offset : byteLength front = f.offset

namespace Between

variable {f : Fault} {front back : List Char}

theorem markStart_eq (h : f.Between front back) : f.markStart = f.offset := by
  rw [markStart, h.input, byteLength_append, h.offset]
  exact Nat.min_eq_left (Nat.le_add_right _ _)

/-- The mark reaches over a byte if there is one. -/
theorem markEnd_eq (h : f.Between front back) : f.markEnd = f.offset + min 1 back.length := by
  rw [markEnd, h.markStart_eq, h.input, byteLength_append, h.offset]
  cases back with
  | nil => simp
  | cons c back =>
      have hpos := c.utf8Size_pos
      rw [byteLength_cons, List.length_cons]
      omega

/-- What is handed to the renderer for a text on one line. -/
theorem simple (h : f.Between front back) (hline : OnOneLine f.input.toList)
    (hne : f.input.toList ≠ []) (htrim : trimEnd f.input.toList = f.input.toList) (file : String) :
    (f.snippet file).Simple where
  onOneLine := hline
  ne_nil := hne
  trimmed := htrim
  position := rfl
  start_le := by
    show f.markStart ≤ f.markEnd
    rw [h.markStart_eq, h.markEnd_eq]
    omega
  stop_le := Nat.min_le_left _ _
  remark := lineEnds_remark f.cause

variable {r : Renderer} {file : String}

/-- If bytes and characters agree in front of the fault, what it is about is drawn as the error. -/
theorem marks_iff (h : f.Between front back) (hr : r.CountsCharacters) (hs : (f.snippet file).Simple)
    (hlength : front.length = f.offset) :
    Marks r.columns (f.reportBy r file) front back ↔ 0 < (back.head?.map r.columns).getD 1 := by
  obtain ⟨drawing, hdraw, hdraws⟩ := hr.within (f.snippet file) front back hs h.input
    (h.markStart_eq.trans hlength.symm) (by
      show f.markEnd = f.markStart + min 1 back.length
      rw [h.markEnd_eq, h.markStart_eq])
  rw [reportBy, hdraw, Option.getD_some]
  exact hdraws.marks_iff

/-- If there are more bytes than characters in front of the fault, something further right is drawn
as the error, or nothing. -/
theorem not_marks (h : f.Between front back) (hr : r.CountsCharacters)
    (hs : (f.snippet file).Simple) (hlt : front.length < f.offset) :
    ¬Marks r.columns (f.reportBy r file) front back := by
  have hstart : (f.snippet file).start = f.offset := h.markStart_eq
  have hstop : (f.snippet file).stop = f.offset + min 1 back.length := h.markEnd_eq
  have hsource : (f.snippet file).source.toList = front ++ back := h.input
  rw [reportBy]
  rcases Nat.lt_trichotomy (front ++ back).length f.offset with hbeyond | hat | hinside
  · rw [hr.beyond _ hs (by rwa [hsource, hstart]), Option.getD_some]
    exact f.not_marks_headline file _ _ _
  · -- There are bytes in front of the fault that are no characters, so it is not at the end.
    obtain ⟨drawing, hdraw, hnone⟩ := hr.across _ hs (by rw [hsource, hstart, hat]) (by
      rw [List.length_append] at hat
      rw [hstop, hstart]
      omega)
    rw [hdraw, Option.getD_some]
    exact hnone front back
  · -- The line has a character at the index, and the one that the fault is about is in front of it.
    cases back with
    | nil =>
        rw [List.append_nil] at hinside
        omega
    | cons c back =>
        obtain ⟨k, hk⟩ := Nat.exists_eq_add_of_lt hlt
        have hsplit : front ++ c :: back = (front ++ c :: back.take k) ++ back.drop k := by simp
        rw [List.length_append, List.length_cons] at hinside
        obtain ⟨drawing, hdraw, hdraws⟩ := hr.within _ (front ++ c :: back.take k) (back.drop k) hs
          (hsource.trans hsplit)
          (by
            rw [hstart, hk, List.length_append, List.length_cons, List.length_take]
            omega)
          (by
            rw [hstop, hstart, List.length_cons, List.length_drop]
            omega)
        rw [hdraw, Option.getD_some]
        exact hdraws.not_marks

end Between

end Fault

/-! ### Reports of abbreviations -/

/-- A fault is about the text without the white space around it, and between two characters of it. -/
theorem Tree.exists_between_of_parse {source : String} {f : Fault} (h : Tree.parse source = .error f) :
    f.input.toList = trim source.toList ∧ ∃ front back, f.Between front back := by
  have hstart : Builder.start.HasRead (Cursor.ofList (trim source.toList)).source [] :=
    ⟨.none .nil, by simp [Builder.start]⟩
  obtain ⟨⟨hinput, front, back, hsplit, hoffset, -⟩, -⟩ := Builder.start.locates_of_run _ hstart h
  have htext : f.input.toList = trim source.toList := by
    rw [hinput, String.toList_ofList]
    rfl
  exact ⟨htext, front, back, htext.trans hsplit, hoffset.symm⟩

/-- There is nothing wrong with a text of white space. -/
theorem Tree.trim_ne_nil_of_parse {source : String} {f : Fault} (h : Tree.parse source = .error f) :
    trim source.toList ≠ [] := by
  intro hnil
  have hend : (Cursor.ofList []).atEnd = true := rfl
  rw [Tree.parse, hnil, Builder.run, if_pos hend] at h
  exact absurd h (by simp [Builder.finish, Builder.start])

namespace Fault

/-- **A report marks the right character if bytes and characters agree up to there.** Let the
abbreviation be on one line and without tabs. A fault is between two characters of its text. The
report has what is behind it in the colour of errors, and the mark under its column, if and only if
every character in front of it takes one byte and it takes a column itself. So the report is right
for every text of which all characters take one byte. -/
theorem report_marks_iff {r : Renderer} (hr : r.CountsCharacters) {source : String}
    (hline : OnOneLine source.toList) {f : Fault} (h : Tree.parse source = .error f) (file : String) :
    (∃ front back, f.Between front back) ∧
      ∀ front back, f.Between front back →
        (Marks r.columns (f.reportBy r file) front back ↔
          (∀ c ∈ front, c.utf8Size = 1) ∧ ∀ c, back.head? = some c → 0 < r.columns c) ∧
        ((∀ c ∈ f.input.toList, c.utf8Size = 1) →
          Marks r.columns (f.reportBy r file) front back) := by
  obtain ⟨hinput, hexists⟩ := Tree.exists_between_of_parse h
  refine ⟨hexists, fun front back hbetween => ?_⟩
  have hs : (f.snippet file).Simple := hbetween.simple (hinput ▸ hline.trim)
    (hinput ▸ Tree.trim_ne_nil_of_parse h) (hinput ▸ trimEnd_trim _) file
  have hcolumn : 0 < (back.head?.map r.columns).getD 1 ↔
      ∀ c, back.head? = some c → 0 < r.columns c := by
    cases back <;> simp
  have hiff : Marks r.columns (f.reportBy r file) front back ↔
      (∀ c ∈ front, c.utf8Size = 1) ∧ ∀ c, back.head? = some c → 0 < r.columns c := by
    have hle := length_le_byteLength front
    rw [← byteLength_eq_length_iff, ← hcolumn]
    rw [hbetween.offset] at hle ⊢
    -- A longer character in front takes the span further on than the fault.
    rcases Nat.lt_or_eq_of_le hle with hlt | heq
    · have hwrong := hbetween.not_marks hr hs hlt
      exact ⟨fun hmarks => absurd hmarks hwrong, fun hsame => absurd hsame.1 (Nat.ne_of_gt hlt)⟩
    · rw [hbetween.marks_iff hr hs heq]
      exact ⟨fun hpos => ⟨heq.symm, hpos⟩, And.right⟩
  refine ⟨hiff, fun hall => hiff.2 ⟨fun c hc => hall c ?_, fun c hc => ?_⟩⟩
  · rw [hbetween.input]
    exact List.mem_append_left _ hc
  · refine hr.columns_pos c (hall c ?_)
    rw [hbetween.input]
    exact List.mem_append_right _ (List.mem_of_mem_head? hc)

/-- Behind a letter of two bytes the `)` at byte offset 4 is not marked; behind one of a single byte
it is. -/
theorem report_marks_iff_accent :
    Renderer.terminal.CountsCharacters ∧
      OnOneLine "\x7bé\x7d)abc".toList ∧
      Tree.parse "\x7bé\x7d)abc" = .error ⟨.strayGroupEnd, 4, "\x7bé\x7d)abc"⟩ ∧
      ¬Marks columns (report ⟨.strayGroupEnd, 4, "\x7bé\x7d)abc"⟩ "in")
        ['\x7b', 'é', '\x7d'] [')', 'a', 'b', 'c'] ∧
      OnOneLine "\x7be\x7d)abc".toList ∧
      Tree.parse "\x7be\x7d)abc" = .error ⟨.strayGroupEnd, 3, "\x7be\x7d)abc"⟩ ∧
      Marks columns (report ⟨.strayGroupEnd, 3, "\x7be\x7d)abc"⟩ "in")
        ['\x7b', 'e', '\x7d'] [')', 'a', 'b', 'c'] := by
  have hlines : OnOneLine "\x7bé\x7d)abc".toList ∧ OnOneLine "\x7be\x7d)abc".toList := by
    decide +kernel
  have haccent : Tree.parse "\x7bé\x7d)abc" = .error ⟨.strayGroupEnd, 4, "\x7bé\x7d)abc"⟩ := by
    decide +kernel
  have hplain : Tree.parse "\x7be\x7d)abc" = .error ⟨.strayGroupEnd, 3, "\x7be\x7d)abc"⟩ := by
    decide +kernel
  have hr := Renderer.terminal_countsCharacters
  obtain ⟨-, hwrong⟩ := report_marks_iff hr hlines.1 haccent "in"
  obtain ⟨-, hright⟩ := report_marks_iff hr hlines.2 hplain "in"
  refine ⟨hr, hlines.1, haccent, fun hmarks => ?_, hlines.2, hplain,
    (hright _ _ ⟨rfl, rfl⟩).2 (byteLength_eq_length_iff.1 (by decide))⟩
  have hbytes := ((hwrong _ _ ⟨rfl, rfl⟩).1.1 hmarks).1 'é' (by simp)
  exact absurd hbytes (by decide)

end Fault

end Shorthand
