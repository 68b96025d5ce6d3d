import Shorthand.Numeral
import Shorthand.Text.CharLiteral

/-!
# Faults

A text that cannot be read is refused with a `Fault`: what is wrong (`Cause`), the byte offset where
it shows, and the text itself. All wording is in `Cause.message` and `Fault.message`.
-/

namespace Shorthand

/-- What is wrong with a text. -/
inductive Cause where
  /-- An element was expected, and the next character (none at the end) starts no part of one. -/
  | noElement (found : Option Char)
  /-- A `/` follows nothing that could be closed. -/
  | straySlash
  /-- Neither a name nor a value stands where an attribute list goes on. -/
  | noAttributeName
  /-- An attribute list has no closing bracket. -/
  | openAttributeList
  /-- A text payload has no closing brace. -/
  | openText
  /-- A quoted literal is not closed by its quote. -/
  | openLiteral (quote : Char)
  /-- A `)` closes no group. -/
  | strayGroupEnd
  /-- A `(` is never closed. -/
  | openGroup
  deriving DecidableEq, Repr

namespace Cause

/-- The wording of a cause. -/
def message : Cause → String
  | .noElement found =>
    "Unable to consume abbreviation node, unexpected " ++
      match found with
      | some c => Text.charLiteral c
      | none => "end of input"
  | .straySlash => "Unexpected self-closing indicator"
  | .noAttributeName => "Expected attribute name or default value"
  | .openAttributeList => "Expected closing \"]\" brace in attribute set"
  | .openText => "Unable to find matching \x7d for text node"
  | .openLiteral quote =>
    "Unable to find matching " ++ String.singleton quote ++ " for string literal"
  | .strayGroupEnd => "Unexpected \")\" group end"
  | .openGroup => "Expected group close"

/-- The short remark that a report writes below the offending character. -/
def remark : Cause → String
  | .noElement _ => "expected element, group or text"
  | .straySlash => "`/` needs a named element"
  | .noAttributeName => "expected attribute"
  | .openAttributeList => "missing `]`"
  | .openText => "missing `\x7d`"
  | .openLiteral _ => "missing closing quote"
  | .strayGroupEnd => "no group to close"
  | .openGroup => "group opened here"

end Cause

/-- A refusal: the cause, the byte offset where it shows, and the text that was being read. -/
structure Fault where
  cause : Cause
  offset : Nat
  input : String
  deriving DecidableEq, Repr

/-- The position of a fault: its offset counted from one, in a word of 64 bits. -/
def Fault.position (fault : Fault) : Nat :=
  (fault.offset + 1) % (Numeral.maxCount + 1)

/-- The wording of a fault. -/
def Fault.message (fault : Fault) : String :=
  fault.cause.message ++ " at char " ++ Numeral.render fault.position ++ " of \"" ++
    fault.input ++ "\""

end Shorthand
