import Shorthand.Cursor

/-!
# Quoted literals

A literal is a text between two equal quotes, single or double. A backslash protects the character
behind it; escapes are **kept** in the text, they only stop the literal from closing early.

* `scan` finds the end of a literal behind its opening quote, `read` reads a whole literal;
* `write` quotes any text so that it reads back: the quote is chosen to need no escape where that
  is possible, a bare quote is escaped, and a backslash at the end is doubled.
-/

namespace Shorthand.Literal

/-- Can the character open a literal? -/
def isQuote (c : Char) : Bool :=
  c == '"' || c == '\''

/-- The text up to the closing quote, appended to the reversed `text`, and what follows the quote. -/
def scanFrom (quote : Char) (text : List Char) : List Char → Option (List Char × List Char)
  | [] => none
  | [c] => if c ≠ '\\' ∧ c = quote then some (text.reverse, []) else none
  | c :: d :: cs =>
    if c = '\\' then scanFrom quote (d :: c :: text) cs
    else if c = quote then some (text.reverse, d :: cs)
    else scanFrom quote (c :: text) (d :: cs)

/-- The text of a literal whose opening quote has been read, and what follows its closing quote;
nothing if the literal is never closed. -/
def scan (quote : Char) (cs : List Char) : Option (List Char × List Char) :=
  scanFrom quote [] cs

/-- Reads a literal, if the cursor is on a quote, and gives its inner text. -/
def read (c : Cursor) : Except Failure (Option String × Cursor) :=
  match c.rest with
  | [] => .ok (none, c)
  | quote :: rest =>
    if isQuote quote then
      match scan quote rest with
      | none => (c.past [quote] rest).failAtEnd (.openLiteral quote)
      | some (text, rest') => .ok (some (String.ofList text), c.past (quote :: text ++ [quote]) rest')
    else .ok (none, c)

/-- The place behind the closing quote, for a cursor behind the opening one. -/
def skip? (quote : Char) (c : Cursor) : Option Cursor :=
  (scan quote c.rest).map fun (text, rest) => c.past (text ++ [quote]) rest

/-! ### Writing -/

/-- The quote that a text is written with: single quotes only around a text that has double quotes
and no single ones. -/
def quoteFor (text : List Char) : Char :=
  if text.contains '"' && !text.contains '\'' then '\'' else '"'

/-- The text with each bare quote escaped, appended to the reversed `done`. The flag tells whether
the character in front was a backslash that protects the next one; a protecting backslash at the
very end is doubled, because it would swallow the closing quote. -/
def escapeFrom (quote : Char) (done : List Char) : Bool → List Char → List Char
  | false, [] => done.reverse
  | true, [] => ('\\' :: done).reverse
  | true, c :: cs => escapeFrom quote (c :: done) false cs
  | false, c :: cs =>
    if c = '\\' then escapeFrom quote (c :: done) true cs
    else if c = quote then escapeFrom quote (c :: '\\' :: done) false cs
    else escapeFrom quote (c :: done) false cs

/-- The text as it stands between two such quotes. -/
def escape (quote : Char) (text : List Char) : List Char :=
  escapeFrom quote [] false text

/-- A text as a literal. -/
def write (text : String) : String :=
  let quote := quoteFor text.toList
  String.ofList (quote :: escape quote text.toList ++ [quote])

/-! ### What a scan takes -/

/-- A scan splits what it reads at the closing quote. -/
theorem scanFrom_eq_some {quote : Char} {text cs text' rest : List Char}
    (h : scanFrom quote text cs = some (text', rest)) :
    ∃ body, text' = text.reverse ++ body ∧ cs = body ++ quote :: rest := by
  fun_induction scanFrom quote text cs with
  | case1 => simp at h
  | case2 text c hc =>
    simp only [Option.some.injEq, Prod.mk.injEq] at h
    exact ⟨[], by simp [← h.1], by simp [← h.2, hc.2]⟩
  | case3 => simp at h
  | case4 text d cs ih =>
    obtain ⟨body, rfl, rfl⟩ := ih h
    exact ⟨'\\' :: d :: body, by simp, by simp⟩
  | case5 text d cs hc =>
    simp only [Option.some.injEq, Prod.mk.injEq] at h
    exact ⟨[], by simp [← h.1], by simp [← h.2]⟩
  | case6 text c d cs hc hq ih =>
    obtain ⟨body, rfl, hcs⟩ := ih h
    exact ⟨c :: body, by simp, by simp [hcs]⟩

/-- A scan loses nothing. -/
theorem scan_eq_some {quote : Char} {cs text rest : List Char}
    (h : scan quote cs = some (text, rest)) : cs = text ++ quote :: rest := by
  obtain ⟨body, rfl, hcs⟩ := scanFrom_eq_some h
  simpa using hcs

theorem length_of_scan {quote : Char} {cs text rest : List Char}
    (h : scan quote cs = some (text, rest)) : rest.length < cs.length := by
  rw [scan_eq_some h]
  simp only [List.length_append, List.length_cons]
  omega

/-- A literal that was read leaves less to read. -/
theorem length_rest_of_read {c c' : Cursor} {text : String} (h : read c = .ok (some text, c')) :
    c'.rest.length < c.rest.length := by
  unfold read at h
  split at h
  · simp at h
  · next hrest =>
    split at h
    · split at h
      · simp [Cursor.failAtEnd] at h
      · next hscan =>
        simp only [Except.ok.injEq, Prod.mk.injEq] at h
        have hlt := length_of_scan hscan
        simp only [← h.2, Cursor.rest_past, hrest, List.length_cons]
        omega
    · simp at h

/-- Where no literal is, nothing is read. -/
theorem eq_of_read_none {c c' : Cursor} (h : read c = .ok (none, c')) : c' = c := by
  unfold read at h
  split at h
  · simp at h; exact h.symm
  · split at h
    · split at h
      · simp [Cursor.failAtEnd] at h
      · simp at h
    · simp at h; exact h.symm

end Shorthand.Literal
