import Shorthand.Text.DefaultIgnorable
import Shorthand.Text.WhiteSpace
import Shorthand.Text.Width.Mark
import Shorthand.Text.Width.Wide

/-!
# Columns

How many columns of a terminal a character takes. Most take one. None is taken by marks and by what
is not drawn, two by the wide characters of East Asia and by most pictures:

* `isZeroWidth` collects what takes no column;
* `wideRanges` has what takes two;
* `columns` puts them together. White space of every kind is drawn as one space.
-/

namespace Shorthand.Text

/-- The vowels and the final consonants that complete a Hangul syllable. They are drawn into the
columns of the consonant in front of them. -/
def hangulFollowerRanges : List (Nat × Nat) :=
  [(0x1160, 0x11ff), (0xd7b0, 0xd7c6), (0xd7cb, 0xd7fb)]

/-- Signs that are drawn around or onto the characters behind them, and a caret between two. -/
def leadingSignRanges : List (Nat × Nat) :=
  [(0x605, 0x605), (0x70f, 0x70f), (0x890, 0x891), (0x8e2, 0x8e2), (0xd4e, 0xd4e), (0xa8fa, 0xa8fa),
   (0x111c2, 0x111c3), (0x1193f, 0x1193f), (0x11941, 0x11941), (0x11a3a, 0x11a3a),
   (0x11a84, 0x11a89), (0x11d46, 0x11d46), (0x11f02, 0x11f02)]

/-- Does the character take no column? -/
def isZeroWidth (c : Char) : Bool :=
  isDefaultIgnorable c || inRanges markRanges c || inRanges hangulFollowerRanges c ||
    inRanges leadingSignRanges c

/-- Characters whose columns follow no property: a joiner that is drawn when it joins nothing, a
filler that stands for a wide consonant, and two signs that are written out as several letters. -/
def ownColumns? (c : Char) : Option Nat :=
  if c = '\u2d7f' then some 1
  else if c = '\u115f' || c = '\u17a4' then some 2
  else if c = '\u17d8' then some 3
  else none

/-- The number of columns that a character takes. -/
def columns (c : Char) : Nat :=
  if isWhiteSpace c then 1
  else (ownColumns? c).getD (if isZeroWidth c then 0 else if inRanges wideRanges c then 2 else 1)

end Shorthand.Text
