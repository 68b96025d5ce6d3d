import Mathlib.Algebra.Ring.Nat
import Shorthand.Snippet.Terminal

/-!
# Marks in drawings

What a drawing of a snippet marks (`Marks`): one character of the line is in the colour of errors, and
below it stands a mark in its column. A line of the drawing is told by the number of lines behind it,
because the name of the file, which stands above, may have any number of lines itself.

Nothing is known of the renderer but what `Renderer.CountsCharacters` says. The span of a snippet is
a span of **characters** to it, and a character without columns leaves no room for a mark. A drawing
then has one place at most that it can mark (`Draws.marks_iff`, `Draws.not_marks`).
-/

namespace Shorthand

open Text Terminal

/-! ### Lines -/

namespace Text

/-- The number of line ends in a text. -/
def lineEnds (s : String) : Nat :=
  s.toList.count '\n'

@[simp] theorem lineEnds_append (s t : String) : lineEnds (s ++ t) = lineEnds s + lineEnds t := by
  rw [lineEnds, String.toList_append, List.count_append]
  rfl

theorem lineEnds_join (l : List String) (h : ∀ s ∈ l, lineEnds s = 0) :
    lineEnds (String.join l) = 0 := by
  induction l with
  | nil => rfl
  | cons s l ih =>
      obtain ⟨hs, hl⟩ := List.forall_mem_cons.1 h
      rw [String.join_cons, lineEnds_append, hs, ih hl]

/-- Between two line ends with equally many others behind them there is nothing. -/
theorem eq_nil_of_lineEnd_eq {as cs ds : List Char} (h : '\n' :: cs = as ++ '\n' :: ds)
    (hcount : cs.count '\n' = ds.count '\n') : as = [] := by
  cases as with
  | nil => rfl
  | cons a as =>
      rw [List.cons_append, List.cons.injEq] at h
      rw [h.2, List.count_append, List.count_cons_self] at hcount
      omega

/-- A text is cut in one way at the line end behind which there is a given number of others. -/
theorem eq_of_append_lineEnd {s t s' t' : String} (h : s ++ "\n" ++ t = s' ++ "\n" ++ t')
    (hends : lineEnds t = lineEnds t') : s = s' ∧ t = t' := by
  have hlists : s.toList ++ '\n' :: t.toList = s'.toList ++ '\n' :: t'.toList := by
    simpa [String.toList_append] using congrArg String.toList h
  rcases List.append_eq_append_iff.1 hlists with ⟨as, hs, ht⟩ | ⟨as, hs, ht⟩
  · obtain rfl := eq_nil_of_lineEnd_eq ht hends
    exact ⟨String.toList_inj.1 (by simpa using hs.symm), String.toList_inj.1 (by simpa using ht)⟩
  · obtain rfl := eq_nil_of_lineEnd_eq ht hends.symm
    exact ⟨String.toList_inj.1 (by simpa using hs), String.toList_inj.1 (by simpa using ht.symm)⟩

/-- The characters that end a line. -/
def endsLine (c : Char) : Bool :=
  c ∈ ['\n', '\x0b', '\x0c', '\r', '\u0085', '\u2028', '\u2029']

/-- The characters are on one line, and none of them is a tab. -/
def OnOneLine (cs : List Char) : Prop :=
  ∀ c ∈ cs, c ≠ '\t' ∧ endsLine c = false

instance (cs : List Char) : Decidable (OnOneLine cs) :=
  List.decidableBAll _ cs

end Text

/-- The snippet has one line of text, without white space at its end, and a span of one place at
most, and the remark fits on one line. -/
structure Snippet.Simple (s : Snippet) : Prop where
  onOneLine : OnOneLine s.source.toList
  ne_nil : s.source.toList ≠ []
  trimmed : trimEnd s.source.toList = s.source.toList
  position : s.position = s.start
  start_le : s.start ≤ s.stop
  stop_le : s.stop ≤ s.start + 1
  remark : lineEnds s.remark = 0

/-! ### What is marked -/

namespace Terminal

/-- The columns of a text. -/
def width (columns : Char → Nat) (cs : List Char) : Nat :=
  (cs.map columns).sum

/-- A character as it is shown, as a text. -/
def shown (c : Char) : String :=
  String.singleton (shownChar c)

/-- Characters in the colour of texts. -/
def plain (cs : List Char) : String :=
  String.join (cs.map fun c => coloured textColour (shown c))

/-- The line of a text with the character behind `front`, if there is one, in the colour of errors. -/
def lineMarked (front : List Char) : List Char → String
  | [] => " " ++ frame "1 │" ++ " " ++ plain front
  | c :: back => " " ++ frame "1 │" ++ " " ++ plain front ++ red (shown c) ++ plain back

/-- The mark for what is behind `front`: another one for the end of the text than for a character. -/
def sign (back : List Char) : String :=
  if back.isEmpty then "│" else "┬"

/-- The line below, up to the column of what is behind `front`. -/
def marginBelow (columns : Char → Nat) (front : List Char) : String :=
  " " ++ coloured marginColour "  │" ++ " " ++ blanks (width columns front)

/-- The drawing marks what stands behind `front`. Below the line of the text there are three others:
two with the arrow, of which the first one holds the mark, and one that closes the frame. -/
def Marks (columns : Char → Nat) (drawing : String) (front back : List Char) : Prop :=
  ∃ above below, lineEnds below = 3 ∧ drawing = above ++ "\n" ++ lineMarked front back ++ "\n" ++
    (marginBelow columns front ++ red (sign back) ++ below)

/-- The drawing has the character behind `front` in the colour of errors, and a stroke over its
columns below. The end of the text takes one column. -/
def Draws (columns : Char → Nat) (drawing : String) (front back : List Char) : Prop :=
  ∃ above room below, lineEnds below = 2 ∧ drawing = above ++ "\n" ++ lineMarked front back ++ "\n" ++
    (marginBelow columns front ++ stroke (sign back) ((back.head?.map columns).getD 1) ++
      blanks room ++ "\n" ++ below)

end Terminal

/-- **What is relied on of a renderer: it counts characters.** It takes the span of a snippet for
indices of the characters of the line. -/
structure Renderer.CountsCharacters (r : Renderer) : Prop where
  /-- Characters of one byte take columns. -/
  columns_pos : ∀ c : Char, c.utf8Size = 1 → 0 < r.columns c
  /-- The character at the index is drawn as the error; at the end of the line it is the place
  behind the last one. -/
  within : ∀ (s : Snippet) (front back : List Char), s.Simple → s.source.toList = front ++ back →
    s.start = front.length → s.stop = s.start + min 1 back.length →
    ∃ drawing, r.draw s = some drawing ∧ Draws r.columns drawing front back
  /-- A character that would be the first one behind the line is not drawn, and nothing is marked. -/
  across : ∀ s : Snippet, s.Simple → s.start = s.source.toList.length → s.stop = s.start + 1 →
    ∃ drawing, r.draw s = some drawing ∧ ∀ front back, ¬Marks r.columns drawing front back
  /-- If the span starts further on, all but the message is left out. -/
  beyond : ∀ s : Snippet, s.Simple → s.source.toList.length < s.start → r.draw s = some s.headline

/-! ### Lines of a drawing -/

namespace Terminal

theorem lineEnds_render (n : Nat) : lineEnds (Numeral.render n) = 0 := by
  rw [lineEnds, Numeral.render, String.toList_ofList, List.count_eq_zero]
  exact fun h => absurd (Numeral.isDigit_of_mem_digits h) (by decide)

@[simp] theorem lineEnds_red (s : String) : lineEnds (red s) = lineEnds s := by
  have hopen : lineEnds "\x1b[31m" = 0 := rfl
  have hclose : lineEnds "\x1b[0m" = 0 := rfl
  rw [red, lineEnds_append, lineEnds_append, hopen, hclose, Nat.zero_add, Nat.add_zero]

@[simp] theorem lineEnds_coloured (colour : Nat) (s : String) :
    lineEnds (coloured colour s) = lineEnds s := by
  have hopen : lineEnds "\x1b[38;5;" = 0 := rfl
  have hclose : lineEnds "\x1b[0m" = 0 := rfl
  have hletter : lineEnds "m" = 0 := rfl
  simp only [coloured, lineEnds_append, lineEnds_render, hopen, hletter, hclose, Nat.zero_add,
    Nat.add_zero]

@[simp] theorem lineEnds_frame (s : String) : lineEnds (frame s) = lineEnds s :=
  lineEnds_coloured frameColour s

@[simp] theorem lineEnds_blanks (n : Nat) : lineEnds (blanks n) = 0 := by
  rw [lineEnds, blanks, String.toList_ofList, List.count_eq_zero]
  exact fun h => absurd (List.eq_of_mem_replicate h) (by decide)

@[simp] theorem lineEnds_shown (c : Char) : lineEnds (shown c) = 0 := by
  have hne : shownChar c ≠ '\n' := by
    unfold shownChar
    split
    · decide
    · rintro rfl
      contradiction
  simpa [lineEnds, shown, List.count_eq_zero] using hne.symm

@[simp] theorem lineEnds_plain (cs : List Char) : lineEnds (plain cs) = 0 := by
  refine lineEnds_join _ fun s hs => ?_
  obtain ⟨c, -, rfl⟩ := List.mem_map.1 hs
  exact (lineEnds_coloured _ _).trans (lineEnds_shown c)

theorem lineEnds_stroke {head : String} (h : lineEnds head = 0) (n : Nat) :
    lineEnds (stroke head n) = 0 := by
  refine lineEnds_join _ fun s hs => ?_
  obtain ⟨i, -, rfl⟩ := List.mem_map.1 hs
  rw [lineEnds_red]
  split
  · exact h
  · rfl

theorem lineEnds_sign (back : List Char) : lineEnds (sign back) = 0 := by
  unfold sign
  split <;> rfl

theorem lineEnds_lineMarked (front back : List Char) : lineEnds (lineMarked front back) = 0 := by
  cases back with
  | nil =>
      simp only [lineMarked, lineEnds_append, lineEnds_frame, lineEnds_plain]
      rfl
  | cons c back =>
      simp only [lineMarked, lineEnds_append, lineEnds_frame, lineEnds_plain, lineEnds_red,
        lineEnds_shown]
      rfl

theorem lineEnds_marginBelow (columns : Char → Nat) (front : List Char) :
    lineEnds (marginBelow columns front) = 0 := by
  simp only [marginBelow, lineEnds_append, lineEnds_coloured, lineEnds_blanks]
  rfl

variable {columns : Char → Nat} {drawing : String} {front back : List Char}

/-- A drawing that marks something has the line of the text in front of its last three lines, and
the mark at the start of these. -/
theorem Marks.cut {before after : String} (h : Marks columns (before ++ "\n" ++ after) front back)
    (hafter : lineEnds after = 3) :
    (∃ above, before = above ++ "\n" ++ lineMarked front back) ∧
      ∃ below, after = marginBelow columns front ++ red (sign back) ++ below := by
  obtain ⟨above, below, hbelow, hdrawing⟩ := h
  obtain ⟨hbefore, hsame⟩ := eq_of_append_lineEnd hdrawing (by
    simp only [lineEnds_append, lineEnds_marginBelow, lineEnds_red, lineEnds_sign, hbelow, hafter])
  exact ⟨⟨above, hbefore⟩, below, hsame⟩

/-- What is drawn at the end of a drawing takes three lines. -/
theorem lineEnds_below {room : Nat} {below : String} (hbelow : lineEnds below = 2) (n : Nat) :
    lineEnds (marginBelow columns front ++ stroke (sign back) n ++ blanks room ++ "\n" ++ below) =
      3 := by
  simp only [lineEnds_append, lineEnds_marginBelow, lineEnds_stroke (lineEnds_sign back),
    lineEnds_blanks, hbelow]
  rfl

/-! ### The place that is marked -/

theorem plain_cons (c : Char) (cs : List Char) :
    plain (c :: cs) = coloured textColour (shown c) ++ plain cs := by
  rw [plain, List.map_cons, String.join_cons]
  rfl

theorem plain_append (cs ds : List Char) : plain (cs ++ ds) = plain cs ++ plain ds := by
  rw [plain, List.map_append, String.join_append]
  rfl

/-- A line that is marked further right differs in the colour of the character behind `front`. -/
theorem lineMarked_ne (c : Char) (back middle more : List Char) :
    lineMarked (front ++ c :: middle) more ≠ lineMarked front (c :: back) := by
  intro hline
  obtain ⟨rest, hrest⟩ : ∃ rest, lineMarked (front ++ c :: middle) more =
      " " ++ frame "1 │" ++ " " ++ plain front ++ coloured textColour (shown c) ++ rest := by
    cases more with
    | nil =>
        refine ⟨plain middle, ?_⟩
        simp only [lineMarked, plain_append, plain_cons, String.append_assoc]
    | cons d more =>
        refine ⟨plain middle ++ red (shown d) ++ plain more, ?_⟩
        simp only [lineMarked, plain_append, plain_cons, String.append_assoc]
  rw [hrest, lineMarked] at hline
  simp only [String.append_assoc, String.append_right_inj] at hline
  -- Both colours start with an escape, `[` and `3`; then they differ.
  have hcolour := congrArg (fun s => s.toList[3]?) hline
  simp [coloured, red] at hcolour

theorem exists_stroke_succ (head : String) (n : Nat) :
    ∃ rest, stroke head (n + 1) = red head ++ rest ∧ lineEnds rest = 0 := by
  refine ⟨stroke "─" n, ?_, lineEnds_stroke rfl n⟩
  rw [stroke, List.range_succ_eq_map, List.map_cons, List.map_map, String.join_cons]
  simp [stroke, Function.comp_def]

theorem ne_red_of_blanks (n : Nat) (s t u : String) : blanks n ++ "\n" ++ s ≠ red t ++ u := by
  intro h
  have hfirst := congrArg (fun s => s.toList.head?) h
  cases n <;> simp [blanks, red, List.replicate_succ] at hfirst

/-- What is drawn as the error is marked, as long as it takes a column. -/
theorem Draws.marks_iff (h : Draws columns drawing front back) :
    Marks columns drawing front back ↔ 0 < (back.head?.map columns).getD 1 := by
  obtain ⟨above, room, below, hbelow, rfl⟩ := h
  constructor
  · intro hmarks
    obtain ⟨-, rest, hrest⟩ := hmarks.cut (lineEnds_below hbelow _)
    -- Without columns there is no mark: only blanks and the end of the line.
    refine Nat.pos_of_ne_zero fun hnone => ?_
    rw [hnone, stroke, List.range_zero, List.map_nil, String.join_nil] at hrest
    simp only [String.append_assoc, String.empty_append, String.append_right_inj] at hrest
    rw [← String.append_assoc] at hrest
    exact ne_red_of_blanks _ _ _ _ hrest
  · intro hsome
    obtain ⟨n, hn⟩ := Nat.exists_eq_add_of_le' hsome
    obtain ⟨rest, hstroke, hrest⟩ := exists_stroke_succ (sign back) n
    refine ⟨above, rest ++ blanks room ++ "\n" ++ below, ?_, ?_⟩
    · simp only [lineEnds_append, lineEnds_blanks, hrest, hbelow]
      rfl
    · rw [hn, hstroke]
      simp only [String.append_assoc]

/-- Nothing in front of what is drawn as the error is marked. -/
theorem Draws.not_marks {c : Char} {middle more : List Char}
    (h : Draws columns drawing (front ++ c :: middle) more) :
    ¬Marks columns drawing front (c :: back) := by
  obtain ⟨above, room, below, hbelow, rfl⟩ := h
  intro hmarks
  obtain ⟨⟨above', habove⟩, -⟩ := hmarks.cut (lineEnds_below hbelow _)
  obtain ⟨-, hline⟩ := eq_of_append_lineEnd habove (by simp only [lineEnds_lineMarked])
  exact lineMarked_ne c back middle more hline

end Terminal

end Shorthand
