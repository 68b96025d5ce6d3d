import Shorthand.Numeral
import Shorthand.Snippet
import Shorthand.Text.Width

/-!
# Snippets on a terminal

A renderer: the message, the file with the position, the line with one character marked, and an arrow
from that character to the remark.

Places are **character** indices of the line. Where the span would start past the last character,
nothing but the message is left; where it would only end there, the line and its arrow are left out.

The line is shown without white space at its end, and any white space in it as a space. The arrow is
drawn under the columns of the characters, so a wide character gets a wide mark and one without
columns gets none. A text of more than one line, or with tabs, is taken for one line without.
-/

namespace Shorthand

/-! ### Colours and strokes -/

namespace Terminal

/-- A text in the colour of errors. -/
def red (s : String) : String :=
  "\x1b[31m" ++ s ++ "\x1b[0m"

/-- A text in one of the 256 colours of a terminal. -/
def coloured (colour : Nat) (s : String) : String :=
  "\x1b[38;5;" ++ Numeral.render colour ++ "m" ++ s ++ "\x1b[0m"

/-- The lines around the text. -/
def frameColour : Nat := 246

/-- The text, the marked character apart. -/
def textColour : Nat := 249

/-- The margin of the lines that hold the arrow. -/
def marginColour : Nat := 240

/-- A part of the frame. -/
def frame (s : String) : String :=
  coloured frameColour s

/-- A character as it is shown. -/
def shownChar (c : Char) : Char :=
  if Text.isWhiteSpace c then ' ' else c

/-- The characters of a line, the one at index `mark` in the colour of errors. -/
def markedLine (mark : Nat) (line : List Char) : String :=
  String.join <| line.mapIdx fun i c =>
    let s := String.singleton (shownChar c)
    if i = mark then red s else coloured textColour s

/-- The columns at `count` indices of a line from `start` on. Behind the line there is one at each
index. -/
def columnsFrom (columns : Char → Nat) (line : List Char) (start count : Nat) : Nat :=
  let cs := (line.drop start).take count
  cs.foldl (fun n c => n + columns c) (count - cs.length)

/-- A run of blanks. -/
def blanks (n : Nat) : String :=
  String.ofList (List.replicate n ' ')

/-- A stroke over some columns: `head` in the first of them, and `─` in the others. -/
def stroke (head : String) (columns : Nat) : String :=
  String.join <| (List.range columns).map fun i => red (if i = 0 then head else "─")

end Terminal

/-! ### Drawing -/

namespace Snippet

open Terminal

/-- The first line: what is wrong. -/
def headline (s : Snippet) : String :=
  red "Error:" ++ " " ++ s.message ++ "\n"

/-- The lines above the text: the file and the position, counted from one. -/
def location (s : Snippet) : String :=
  "   " ++ frame "╭" ++ frame "─" ++ frame "[" ++ s.file ++ ":1:" ++ Numeral.render (s.position + 1) ++
    frame "]" ++ "\n" ++
  "   " ++ frame "│" ++ "\n"

/-- The arrow below the line: a mark under the character, and from there a stroke to the remark. It
reaches over two more indices. -/
def arrow (columns : Char → Nat) (s : Snippet) (line : List Char) : String :=
  let margin := " " ++ coloured marginColour "  │" ++ " " ++ blanks (columnsFrom columns line 0 s.start)
  let marked := columnsFrom columns line s.start 1
  let reach := columnsFrom columns line (s.start + 1) (s.stop + 1 - s.start)
  let mark := if s.start < s.stop then "┬" else "│"
  margin ++ stroke mark marked ++ blanks reach ++ "\n" ++
    margin ++ stroke "╰" marked ++ stroke "─" reach ++ " " ++ s.remark ++ "\n"

/-- The line with its arrow, or an empty margin if the span ends past the last character. -/
def excerpt (columns : Char → Nat) (s : Snippet) : String :=
  if s.source.toList.length < s.stop then " " ++ coloured marginColour "  │" ++ " " ++ "\n"
  else
    let line := Text.trimEnd s.source.toList
    " " ++ frame "1 │" ++ " " ++ markedLine s.start line ++ "\n" ++ s.arrow columns line

/-- The drawing of a snippet. -/
def draw (columns : Char → Nat) (s : Snippet) : String :=
  if s.source.toList.length < s.start then s.headline
  else s.headline ++ s.location ++ s.excerpt columns ++ frame "───╯" ++ "\n"

end Snippet

/-- Draws every snippet, with the columns of terminals. -/
def Renderer.terminal : Renderer where
  draw := fun s => some (s.draw Text.columns)
  columns := Text.columns

end Shorthand
