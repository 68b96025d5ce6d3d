import Shorthand.Proofs.Reader.Quoted

/-!
# Where escapes stand

The writer of literals keeps a flag, and looks at each character once. What it writes can be told of
each character alone, from the text in front of it: a quote gets a backslash if the backslashes
right in front of it pair up among themselves, and so does the end of the text if they do not
(`withBackslashes`).

Reading gives the text with these backslashes, and that text is written as the first one was
(`read_write_escaped`).
-/

namespace Shorthand.Literal

/-! ### Backslashes in front -/

theorem trailingBackslashes_concat (front : List Char) (c : Char) :
    trailingBackslashes (front ++ [c]) = if c = '\\' then trailingBackslashes front + 1 else 0 := by
  by_cases hc : c = '\\' <;> simp [trailingBackslashes, hc]

/-- A character is protected by a backslash that is not protected itself. -/
theorem dangling_concat (front : List Char) (c : Char) :
    Dangling (front ++ [c]) ↔ c = '\\' ∧ ¬Dangling front := by
  rw [Dangling, Dangling, trailingBackslashes_concat]
  by_cases hc : c = '\\'
  · simp only [hc, if_true, true_and]
    omega
  · simp [hc]

/-- The text `cs` behind `front`, with a backslash before each quote that no backslash protects, and
one at the end that keeps the end from being protected. -/
def withBackslashes (quote : Char) (front : List Char) : List Char → List Char
  | [] => if Dangling front then ['\\'] else []
  | c :: cs =>
    (if c = quote ∧ ¬Dangling front then ['\\', c] else [c]) ++
      withBackslashes quote (front ++ [c]) cs

theorem escapeFrom_eq {quote : Char} (hq : quote ≠ '\\') {done : List Char} {flag : Bool}
    {cs : List Char} (front : List Char) (hflag : flag = true ↔ Dangling front) :
    escapeFrom quote done flag cs = done.reverse ++ withBackslashes quote front cs := by
  -- The flag says of the next character what the text in front says.
  fun_induction escapeFrom quote done flag cs generalizing front with
  | case1 done =>
      have hfront : ¬Dangling front := by simpa using hflag
      simp [withBackslashes, hfront]
  | case2 done =>
      have hfront : Dangling front := by simpa using hflag
      simp [withBackslashes, hfront]
  | case3 done c cs ih =>
      have hfront : Dangling front := by simpa using hflag
      rw [ih (front ++ [c]) (by simp [dangling_concat, hfront])]
      simp [withBackslashes, hfront]
  | case4 done cs ih =>
      have hfront : ¬Dangling front := by simpa using hflag
      rw [ih (front ++ ['\\']) (by simp [dangling_concat, hfront])]
      simp [withBackslashes, hq.symm]
  | case5 done cs hback ih =>
      have hfront : ¬Dangling front := by simpa using hflag
      rw [ih (front ++ [quote]) (by simp [dangling_concat, hq])]
      simp [withBackslashes, hfront]
  | case6 done c cs hback hquote ih =>
      rw [ih (front ++ [c]) (by simp [dangling_concat, hback])]
      simp [withBackslashes, hquote]

theorem escape_eq {quote : Char} (hq : quote ≠ '\\') (text : List Char) :
    escape quote text = withBackslashes quote [] text := by
  rw [escape, escapeFrom_eq hq [] (by decide)]
  rfl

/-! ### Reading what was written -/

theorem toList_kept (text : String) :
    (kept text).toList = withBackslashes (quoteFor text.toList) [] text.toList := by
  rw [kept, String.toList_ofList, escape_eq (ne_backslash_of_isQuote (isQuote_quoteFor _))]

/-- **Every text can be quoted safely.** In front of whatever follows, a text that was written as a
literal reads back, and reading stops where the literal ends. What is read is the text with a
backslash before each quote that had none, and one at the end if the text ended in an odd number of
them. It is the text itself if that had no need of either, and it is always written as the text was.
-/
theorem read_write_escaped (text : String) {c : Cursor} {rest : List Char}
    (hc : c.rest = (write text).toList ++ rest) :
    ∃ text', read c = .ok (some text', c.past (write text).toList rest) ∧
      text'.toList = withBackslashes (quoteFor text.toList) [] text.toList ∧
      (¬('"' ∈ text.toList ∧ '\'' ∈ text.toList) → ¬Dangling text.toList → text' = text) ∧
      write text' = write text := by
  refine ⟨kept text, ?_, toList_kept text, fun hquotes hend => ?_, write_kept text⟩
  · rw [toList_write] at hc ⊢
    exact (escapes_kept text).body.read_eq_past (isQuote_quoteFor _) hc
  · exact Quotable.kept_eq ⟨hquotes, hend⟩

/-- Both kinds of quotes, one of them protected, and a backslash at the end. -/
theorem read_write_escaped_mixed :
    (Cursor.ofString "\"'a\\\"b\\\"c\\\\\"]").rest = (write "'a\"b\\\"c\\").toList ++ [']'] ∧
      ∃ c', read (.ofString "\"'a\\\"b\\\"c\\\\\"]") = .ok (some "'a\\\"b\\\"c\\\\", c') ∧
        c'.rest = [']'] ∧ write "'a\\\"b\\\"c\\\\" = write "'a\"b\\\"c\\" := by
  have hc : (Cursor.ofString "\"'a\\\"b\\\"c\\\\\"]").rest =
      (write "'a\"b\\\"c\\").toList ++ [']'] := by decide +kernel
  obtain ⟨text', hread, htext, -, hwrite⟩ := read_write_escaped _ hc
  obtain rfl : text' = "'a\\\"b\\\"c\\\\" := String.toList_inj.1 (htext.trans (by decide +kernel))
  exact ⟨hc, _, hread, rfl, hwrite⟩

end Shorthand.Literal
