import Shorthand.Literal

/-!
# Text payloads

A payload is a text between braces. Inner braces must balance; a quoted literal inside is passed
over as a whole, so braces within quotes do not count, and a backslash protects the character
behind it. The text is kept as it is written.
-/

namespace Shorthand.Payload

/-- How a search for the closing brace ends. Characters passed over are held last first. -/
inductive Search where
  /-- The brace was found: the text in front of it, and what follows it. -/
  | closed (text rest : List Char)
  /-- The text ended first. -/
  | unclosed (passed : List Char)
  /-- A literal that opens on the way never closes: what was passed over, its quote included. -/
  | openLiteral (quote : Char) (passed rest : List Char)
  deriving DecidableEq, Repr

/-- Looks for the closing brace of a payload inside of which `inner` more braces are open. -/
def search (inner : Nat) (passed cs : List Char) : Search :=
  match cs with
  | [] => .unclosed passed
  | c :: cs =>
    if Literal.isQuote c then
      -- A literal counts as one piece, whatever braces are in it.
      match _hscan : Literal.scan c cs with
      | none => .openLiteral c (c :: passed) cs
      | some (text, rest) => search inner (c :: text.reverse ++ c :: passed) rest
    else if c = '\x7b' then search (inner + 1) (c :: passed) cs
    else if c = '\x7d' then
      match inner with
      | 0 => .closed passed.reverse cs
      | inner + 1 => search inner (c :: passed) cs
    else if c = '\\' then
      match cs with
      | [] => .unclosed (c :: passed)
      | d :: cs => search inner (d :: c :: passed) cs
    else search inner (c :: passed) cs
termination_by cs.length
decreasing_by
  · have := Literal.length_of_scan _hscan
    simp only [List.length_cons]
    omega
  all_goals
    simp only [List.length_cons]
    omega

/-- Reads a payload, if the cursor is on an opening brace, and gives the text between the braces. -/
def read (c : Cursor) : Except Failure (Option String × Cursor) :=
  match c.rest with
  | [] => .ok (none, c)
  | x :: rest =>
    if x = '\x7b' then
      match search 0 [] rest with
      | .closed text rest' =>
        .ok (some (String.ofList text), c.past (x :: text ++ ['\x7d']) rest')
      | .unclosed passed => (c.past (x :: passed.reverse) []).failAtEnd .openText
      | .openLiteral quote passed rest' =>
        (c.past (x :: passed.reverse) rest').failAtEnd (.openLiteral quote)
    else .ok (none, c)

/-! ### What a search takes -/

/-- A search that succeeds splits what it reads at the closing brace. -/
theorem search_eq_closed {inner : Nat} {passed cs text rest : List Char}
    (h : search inner passed cs = .closed text rest) :
    ∃ body, text = passed.reverse ++ body ∧ cs = body ++ '\x7d' :: rest := by
  fun_induction search inner passed cs with
  | case1 => simp at h
  | case2 => simp at h
  | case3 inner passed c cs hq text' rest' hscan ih =>
    obtain ⟨body, rfl, rfl⟩ := ih h
    exact ⟨c :: text' ++ c :: body, by simp, by simp [Literal.scan_eq_some hscan]⟩
  | case4 inner passed cs _ ih =>
    obtain ⟨body, rfl, rfl⟩ := ih h
    exact ⟨'\x7b' :: body, by simp, by simp⟩
  | case5 passed cs =>
    simp only [Search.closed.injEq] at h
    exact ⟨[], by simp [← h.1], by simp [← h.2]⟩
  | case6 passed cs inner _ _ ih =>
    obtain ⟨body, rfl, rfl⟩ := ih h
    exact ⟨'\x7d' :: body, by simp, by simp⟩
  | case7 => simp at h
  | case8 inner passed d cs _ _ _ ih =>
    obtain ⟨body, rfl, rfl⟩ := ih h
    exact ⟨'\\' :: d :: body, by simp, by simp⟩
  | case9 inner passed c cs _ _ _ _ ih =>
    obtain ⟨body, rfl, rfl⟩ := ih h
    exact ⟨c :: body, by simp, by simp⟩

/-- A payload that was read leaves less to read. -/
theorem length_rest_of_read {c c' : Cursor} {text : String} (h : read c = .ok (some text, c')) :
    c'.rest.length < c.rest.length := by
  unfold read at h
  split at h
  · simp at h
  · next hrest =>
    split at h
    · split at h
      · next hsearch =>
        obtain ⟨body, -, hcs⟩ := search_eq_closed hsearch
        simp only [Except.ok.injEq, Prod.mk.injEq] at h
        simp only [← h.2, Cursor.rest_past, hrest, hcs, List.length_cons, List.length_append]
        omega
      · simp [Cursor.failAtEnd] at h
      · simp [Cursor.failAtEnd] at h
    · simp at h

/-- Where no payload is, nothing is read. -/
theorem eq_of_read_none {c c' : Cursor} (h : read c = .ok (none, c')) : c' = c := by
  unfold read at h
  split at h
  · simp at h; exact h.symm
  · split at h
    · split at h <;> simp [Cursor.failAtEnd] at h
    · simp at h; exact h.symm

end Shorthand.Payload
