import Shorthand.Numeral
import Shorthand.Text.CharLiteral

/-!
# JSON

JSON texts as values. Numbers and strings are kept **as they are written**: a number because the
formats of this library tell `5` from `5.0`, a string because an escape may name half of a surrogate
pair, which is well-formed JSON but no text. `Json.nat?` and `Json.text?` say what they stand for.
-/

namespace Shorthand

/-- A JSON value. -/
inductive Json where
  | null
  | bool (b : Bool)
  /-- A number as it is written. -/
  | number (written : String)
  /-- A string as it is written between its quotes. -/
  | string (written : String)
  | array (items : List Json)
  | object (members : List (String × Json))
  deriving Repr, BEq, Inhabited

namespace Json

/-! ### Strings -/

/-- A character as it is written in a string. -/
def escapeChar (c : Char) : List Char :=
  if c = '"' then ['\\', '"']
  else if c = '\\' then ['\\', '\\']
  else if c = '\n' then ['\\', 'n']
  else if c = '\t' then ['\\', 't']
  else if c = '\r' then ['\\', 'r']
  else if c = '\x08' then ['\\', 'b']
  else if c = '\x0c' then ['\\', 'f']
  else if c.toNat < 0x20 then
    ['\\', 'u', '0', '0', Text.hexDigit (c.toNat / 16), Text.hexDigit (c.toNat % 16)]
  else [c]

/-- The string of a text. -/
def ofString (s : String) : Json :=
  .string (String.ofList (s.toList.flatMap escapeChar))

/-- The value of a digit in base sixteen. -/
def hexValue? (c : Char) : Option Nat :=
  if '0' ≤ c ∧ c ≤ '9' then some (c.toNat - '0'.toNat)
  else if 'a' ≤ c ∧ c ≤ 'f' then some (c.toNat - 'a'.toNat + 10)
  else if 'A' ≤ c ∧ c ≤ 'F' then some (c.toNat - 'A'.toNat + 10)
  else none

/-- The value of four digits in base sixteen. -/
def hexQuad? (a b c d : Char) : Option Nat := do
  return 4096 * (← hexValue? a) + 256 * (← hexValue? b) + 16 * (← hexValue? c) + (← hexValue? d)

/-- The character that a short escape stands for. -/
def shortEscape? : Char → Option Char
  | '"' => some '"'
  | '\\' => some '\\'
  | '/' => some '/'
  | 'b' => some '\x08'
  | 'f' => some '\x0c'
  | 'n' => some '\n'
  | 'r' => some '\r'
  | 't' => some '\t'
  | _ => none

/-- Is the number the first half of a surrogate pair? -/
def isHighSurrogate (n : Nat) : Bool :=
  0xd800 ≤ n && n ≤ 0xdbff

/-- Is the number the second half of a surrogate pair? -/
def isLowSurrogate (n : Nat) : Bool :=
  0xdc00 ≤ n && n ≤ 0xdfff

/-- The text that a written string stands for, behind `done` (last first). Half of a surrogate pair
stands for no text. -/
def unescapeFrom (done : List Char) : List Char → Option (List Char)
  | [] => some done.reverse
  | '\\' :: 'u' :: a :: b :: c :: d :: cs => do
    let first ← hexQuad? a b c d
    if isHighSurrogate first then
      match cs with
      | '\\' :: 'u' :: a :: b :: c :: d :: cs =>
        let second ← hexQuad? a b c d
        if isLowSurrogate second then
          let code := 0x10000 + 0x400 * (first - 0xd800) + (second - 0xdc00)
          unescapeFrom (Char.ofNat code :: done) cs
        else none
      | _ => none
    else if isLowSurrogate first then none
    else unescapeFrom (Char.ofNat first :: done) cs
  | '\\' :: c :: cs => do unescapeFrom ((← shortEscape? c) :: done) cs
  | '\\' :: [] => none
  | c :: cs => unescapeFrom (c :: done) cs

/-- The text that a written string stands for. -/
def unescape? (written : String) : Option String :=
  (unescapeFrom [] written.toList).map String.ofList

/-- The text of a string value. -/
def text? : Json → Option String
  | .string written => unescape? written
  | _ => none

/-! ### Numbers -/

/-- The number of a natural number. -/
def ofNat (n : Nat) : Json :=
  .number (Numeral.render n)

/-- The natural number up to `max` that is written without sign, point and exponent. -/
def nat? (max : Nat) : Json → Option Nat
  | .number written =>
    let cs := written.toList
    if cs.all Numeral.isDigit && Numeral.value cs ≤ max then some (Numeral.value cs) else none
  | _ => none

/-- The truth value of a value. -/
def bool? : Json → Option Bool
  | .bool b => some b
  | _ => none

/-- The items of an array. -/
def items? : Json → Option (List Json)
  | .array items => some items
  | _ => none

/-! ### Values that may be missing -/

/-- The value of an option; none is written as null. -/
def ofOption {α : Type} (f : α → Json) (o : Option α) : Json :=
  o.elim .null f

/-- What stands for an option: null or nothing at all for none. -/
def option? {α : Type} (f : Json → Option α) : Option Json → Option (Option α)
  | none | some .null => some none
  | some j => (f j).map some

/-! ### Records and choices -/

/-- The value of a key that may not be there more than once. -/
def unique? (members : List (String × Json)) (key : String) : Option (Option Json) :=
  match members.filter fun member => member.1 = key with
  | [] => some none
  | [member] => some (some member.2)
  | _ => none

/-- The members of an object by the texts of their keys. -/
def members? : Json → Option (List (String × Json))
  | .object members => members.mapM fun (key, j) => do return (← unescape? key, j)
  | _ => none

/-- The fields of a record, which is an object or an array of exactly the fields in order. Other keys
of an object do not matter. -/
def fields? (keys : List String) (j : Json) : Option (List (Option Json)) :=
  match j with
  | .array items => if items.length = keys.length then some (items.map some) else none
  | _ => do keys.mapM (unique? (← j.members?))

/-- A choice: its name alone, or an object of its name and what goes with it. -/
def choice? (j : Json) : Option (String × Option Json) :=
  match j with
  | .string written => do return (← unescape? written, none)
  | _ => do
    match ← j.members? with
    | [(name, content)] => return (name, some content)
    | _ => none

end Json

end Shorthand
