import Shorthand.Payload

/-!
# The grammar of payloads

Which texts may stand between quotes and between braces, said as inductive relations and without any
scanning.
-/

namespace Shorthand

/-- Texts between two quotes: neither the quote nor a backslash occurs, but behind a backslash any
character does. -/
inductive Literal.Body (quote : Char) : List Char → Prop where
  | nil : Body quote []
  | plain {c : Char} {cs : List Char} (ne_quote : c ≠ quote) (ne_backslash : c ≠ '\\')
      (rest : Body quote cs) : Body quote (c :: cs)
  | escaped (c : Char) {cs : List Char} (rest : Body quote cs) : Body quote ('\\' :: c :: cs)

/-- Texts between two braces: braces balance, quotes stand around literals, and a backslash in front
of a character takes away its meaning. -/
inductive Payload.Balanced : List Char → Prop where
  | nil : Balanced []
  | plain {c : Char} {cs : List Char} (no_quote : Literal.isQuote c = false)
      (special : c ∉ ['\x7b', '\x7d', '\\']) (rest : Balanced cs) : Balanced (c :: cs)
  | escaped (c : Char) {cs : List Char} (rest : Balanced cs) : Balanced ('\\' :: c :: cs)
  | literal {quote : Char} {body cs : List Char} (is_quote : Literal.isQuote quote = true)
      (inner : Literal.Body quote body) (rest : Balanced cs) :
      Balanced (quote :: body ++ quote :: cs)
  | braces {body cs : List Char} (inner : Balanced body) (rest : Balanced cs) :
      Balanced ('\x7b' :: body ++ '\x7d' :: cs)

end Shorthand
