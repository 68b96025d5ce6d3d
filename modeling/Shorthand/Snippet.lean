/-!
# Snippets

A snippet is a text with a span that is marked as an error, and what is said about the error. It is
drawn by a renderer, of which nothing is known here: anything that draws snippets is one.
-/

namespace Shorthand

/-- A text with a span that is marked as an error. -/
structure Snippet where
  /-- The name of the file that the text is said to be from. -/
  file : String
  source : String
  /-- What is wrong. -/
  message : String
  /-- Where the error is said to be. -/
  position : Nat
  /-- The start of the span. What places are counted in is up to the renderer. -/
  start : Nat
  /-- The end of the span. -/
  stop : Nat
  /-- The short remark at the mark. -/
  remark : String
  deriving DecidableEq, Repr

/-- What draws snippets for a terminal with colours. -/
structure Renderer where
  /-- The drawing of a snippet, unless that fails. -/
  draw : Snippet → Option String
  /-- The number of columns that a character takes. -/
  columns : Char → Nat

end Shorthand
