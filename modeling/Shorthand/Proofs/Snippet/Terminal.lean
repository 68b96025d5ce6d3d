import Shorthand.Proofs.Snippet.Marks

/-!
# The terminal counts characters

The renderer for terminals is one that counts characters (`Renderer.terminal_countsCharacters`),
whatever columns it takes for them: the line and the arrow are put together index by index
(`Snippet.draws`), and if the span is not within the line, what is left has too few lines for a
mark, or begins further right.
-/

namespace Shorthand

open Text Terminal

/-! ### Columns -/

namespace Text

theorem inRanges_eq_false {ranges : List (Nat × Nat)} {bound : Nat} {c : Char}
    (hranges : ∀ range ∈ ranges, bound ≤ range.1) (hc : c.toNat < bound) :
    inRanges ranges c = false := by
  refine List.any_eq_false.2 fun range hrange => ?_
  have hbound := hranges range hrange
  simp
  omega

/-- Every character of one byte takes a column: all that take none have higher code points. -/
theorem columns_pos_of_utf8Size {c : Char} (h : c.utf8Size = 1) : 0 < columns c := by
  have hlt : c.toNat < 128 :=
    Nat.lt_succ_of_le (UInt32.le_iff_toNat_le.1 (Char.utf8Size_eq_one_iff.1 h))
  have hignorable : ∀ range ∈ defaultIgnorableRanges, 128 ≤ range.1 := by decide
  have hmark : ∀ range ∈ markRanges, 128 ≤ range.1 := by decide +kernel
  have hfollower : ∀ range ∈ hangulFollowerRanges, 128 ≤ range.1 := by decide
  have hsign : ∀ range ∈ leadingSignRanges, 128 ≤ range.1 := by decide
  have hzero : isZeroWidth c = false := by
    rw [isZeroWidth, isDefaultIgnorable, inRanges_eq_false hignorable hlt, inRanges_eq_false hmark hlt,
      inRanges_eq_false hfollower hlt, inRanges_eq_false hsign hlt]
    rfl
  simp only [columns, hzero, ownColumns?, Bool.false_eq_true, if_false]
  split_ifs <;> decide

end Text

namespace Terminal

theorem foldl_columns (columns : Char → Nat) (cs : List Char) (n : Nat) :
    cs.foldl (fun n c => n + columns c) n = n + width columns cs := by
  induction cs generalizing n with
  | nil => rfl
  | cons c cs ih =>
      rw [List.foldl_cons, ih, width, width, List.map_cons, List.sum_cons, Nat.add_assoc]

variable {columns : Char → Nat} {front back : List Char}

theorem columnsFrom_front : columnsFrom columns (front ++ back) 0 front.length = width columns front := by
  simp [columnsFrom, foldl_columns]

/-- The columns of what stands behind `front`; the end of the text takes one. -/
theorem columnsFrom_back :
    columnsFrom columns (front ++ back) front.length 1 = (back.head?.map columns).getD 1 := by
  cases back with
  | nil => simp [columnsFrom]
  | cons c back => simp [columnsFrom]

/-! ### The line -/

theorem markedLine_zero_cons (c : Char) (cs : List Char) :
    markedLine 0 (c :: cs) = red (shown c) ++ plain cs := by
  have hrest : (cs.mapIdx fun i c =>
      if i + 1 = 0 then red (shown c) else coloured textColour (shown c)) =
        cs.map fun c => coloured textColour (shown c) :=
    List.ext_getElem (by simp) (by simp)
  rw [markedLine, List.mapIdx_cons, String.join_cons]
  exact congrArg (fun l => red (shown c) ++ String.join l) hrest

theorem markedLine_succ_cons (mark : Nat) (c : Char) (cs : List Char) :
    markedLine (mark + 1) (c :: cs) = coloured textColour (shown c) ++ markedLine mark cs := by
  rw [markedLine, List.mapIdx_cons, String.join_cons]
  simp only [Nat.add_right_cancel_iff]
  rfl

/-- Up to the mark the line has the colour of texts. -/
theorem markedLine_append (mark : Nat) (front back : List Char) :
    markedLine (front.length + mark) (front ++ back) = plain front ++ markedLine mark back := by
  induction front with
  | nil => simp [plain]
  | cons c front ih =>
      rw [List.length_cons, Nat.add_right_comm, List.cons_append, markedLine_succ_cons, ih, plain_cons,
        String.append_assoc]

theorem lineMarked_eq (front back : List Char) :
    lineMarked front back =
      " " ++ frame "1 │" ++ " " ++ markedLine front.length (front ++ back) := by
  rw [← Nat.add_zero front.length, markedLine_append]
  cases back with
  | nil => simp [lineMarked, markedLine]
  | cons c back => simp only [lineMarked, markedLine_zero_cons, String.append_assoc]

end Terminal

/-! ### Drawings -/

namespace Snippet

variable {s : Snippet} {columns : Char → Nat} {front back : List Char}

/-- The last line above the text, which the name of the file is in front of. -/
theorem exists_location_eq (s : Snippet) :
    ∃ header, s.location = header ++ "\n" ++ ("   " ++ frame "│") ++ "\n" := by
  refine ⟨"   " ++ frame "╭" ++ frame "─" ++ frame "[" ++ s.file ++ ":1:" ++
    Numeral.render (s.position + 1) ++ frame "]", ?_⟩
  unfold location
  simp only [String.append_assoc]

/-- The arrow takes two lines, and its mark is in the first one. -/
theorem exists_arrow_eq (columns : Char → Nat) (hremark : lineEnds s.remark = 0)
    (hstart : s.start = front.length) (hstop : s.stop = s.start + min 1 back.length) :
    ∃ room lower, lineEnds lower = 1 ∧ s.arrow columns (front ++ back) = marginBelow columns front ++
      stroke (sign back) ((back.head?.map columns).getD 1) ++ blanks room ++ "\n" ++ lower := by
  have hsign : (if s.start < s.stop then "┬" else "│") = sign back := by
    cases back with
    | nil => simp [hstop, sign]
    | cons c back => simp [hstop, sign]
  unfold arrow
  extract_lets margin marked reach mark
  have hmargin : margin = marginBelow columns front := by
    simp only [margin, hstart, columnsFrom_front, marginBelow]
  have hmarked : marked = (back.head?.map columns).getD 1 := by
    simp only [marked, hstart, columnsFrom_back]
  refine ⟨reach, margin ++ stroke "╰" marked ++ stroke "─" reach ++ " " ++ s.remark ++ "\n", ?_, ?_⟩
  · have hcorner : lineEnds (stroke "╰" marked) = 0 := lineEnds_stroke rfl marked
    have hstroke : lineEnds (stroke "─" reach) = 0 := lineEnds_stroke rfl reach
    simp only [lineEnds_append, hmargin, lineEnds_marginBelow, hcorner, hstroke, hremark]
    rfl
  · simp only [mark, hsign, hmargin, hmarked, String.append_assoc]

/-- If the text is long enough for the span, the character at its start is drawn as the error. -/
theorem draws (hs : s.Simple) (hsource : s.source.toList = front ++ back)
    (hstart : s.start = front.length) (hstop : s.stop = s.start + min 1 back.length) :
    Draws columns (s.draw columns) front back := by
  obtain ⟨header, hlocation⟩ := s.exists_location_eq
  obtain ⟨room, lower, hlower, harrow⟩ := exists_arrow_eq columns hs.remark hstart hstop
  have hinside : s.stop ≤ (front ++ back).length := by
    rw [hstop, hstart, List.length_append]
    omega
  have hstarts : s.start ≤ s.stop := hs.start_le
  refine ⟨s.headline ++ header ++ "\n" ++ ("   " ++ frame "│"), room,
    lower ++ frame "───╯" ++ "\n", ?_, ?_⟩
  · simp only [lineEnds_append, hlower, lineEnds_frame]
    rfl
  · rw [draw, excerpt, hs.trimmed, hsource, if_neg (by omega), if_neg (by omega)]
    dsimp only
    rw [harrow, hlocation, lineMarked_eq, ← hstart]
    simp only [String.append_assoc]

/-- If the span starts further on than right behind the text, only the message is left. -/
theorem draw_of_lt (hstart : s.source.toList.length < s.start) : s.draw columns = s.headline := by
  rw [draw, if_pos hstart]

/-- Nothing is marked in a drawing without the line of the text. In the place of the arrow it has the
frame above the text, which starts further right. -/
theorem not_marks_of_lt (hstart : s.start ≤ s.source.toList.length)
    (hstop : s.source.toList.length < s.stop) : ¬Marks columns (s.draw columns) front back := by
  intro h
  obtain ⟨header, hlocation⟩ := s.exists_location_eq
  have hlines : Marks columns (s.headline ++ header ++ "\n" ++ ("   " ++ frame "│" ++ "\n" ++ " " ++
      coloured marginColour "  │" ++ " " ++ "\n" ++ frame "───╯" ++ "\n")) front back := by
    rw [draw, excerpt, if_neg (Nat.not_lt.2 hstart), if_pos hstop, hlocation] at h
    simpa only [String.append_assoc] using h
  obtain ⟨-, below, hmark⟩ := hlines.cut (by
    simp only [lineEnds_append, lineEnds_frame, lineEnds_coloured]
    rfl)
  have hsecond := congrArg (fun s => s.toList[1]?) hmark
  simp [marginBelow, coloured, frame] at hsecond

end Snippet

/-- **The renderer for terminals counts characters.** -/
theorem Renderer.terminal_countsCharacters : Renderer.terminal.CountsCharacters where
  columns_pos := fun _ => columns_pos_of_utf8Size
  within := fun s _ _ hs hsource hstart hstop =>
    ⟨s.draw Text.columns, rfl, Snippet.draws hs hsource hstart hstop⟩
  across := fun s _ hstart hstop =>
    ⟨s.draw Text.columns, rfl, fun _ _ => Snippet.not_marks_of_lt (by omega) (by omega)⟩
  beyond := fun _ _ hstart => congrArg some (Snippet.draw_of_lt hstart)

end Shorthand
