import Shorthand.Text.Ranges

/-!
# White space

The Unicode `White_Space` property, and the operations that build on it:

* `trim` drops white space at both ends of a text, `trimEnd` only behind it;
* `words` cuts a text into its maximal runs without white space.
-/

namespace Shorthand.Text

/-- The code points with the `White_Space` property, as closed ranges in ascending order. -/
def whiteSpaceRanges : List (Nat × Nat) :=
  [(0x9, 0xd), (0x20, 0x20), (0x85, 0x85), (0xa0, 0xa0), (0x1680, 0x1680), (0x2000, 0x200a),
   (0x2028, 0x2029), (0x202f, 0x202f), (0x205f, 0x205f), (0x3000, 0x3000)]

/-- Does the character have the `White_Space` property? -/
def isWhiteSpace (c : Char) : Bool :=
  inRanges whiteSpaceRanges c

/-- The text without the white space at its end. -/
def trimEnd (cs : List Char) : List Char :=
  (cs.reverse.dropWhile isWhiteSpace).reverse

/-- The text without the white space at its two ends. -/
def trim (cs : List Char) : List Char :=
  trimEnd (cs.dropWhile isWhiteSpace)

/-- The words of a text, where `word` holds the characters of the word being read, last first. -/
def wordsFrom (word : List Char) : List Char → List (List Char)
  | [] => if word.isEmpty then [] else [word.reverse]
  | c :: cs =>
    if isWhiteSpace c then
      if word.isEmpty then wordsFrom [] cs else word.reverse :: wordsFrom [] cs
    else wordsFrom (c :: word) cs

/-- The maximal runs of characters other than white space, in order. -/
def words (cs : List Char) : List (List Char) :=
  wordsFrom [] cs

/-- `trim` on strings. -/
def trimmed (s : String) : String :=
  String.ofList (trim s.toList)

end Shorthand.Text
