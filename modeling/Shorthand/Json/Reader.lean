import Shorthand.Json

/-!
# Reading JSON

Reads a JSON text to its last character. Nothing but blanks may surround a value, and the grammar is
taken strictly: no leading zeros, no bare control characters in strings, no comma at the end.

Open arrays and objects are kept on a stack, so nesting is no concern. Every step but the last takes
a character at least, which bounds the steps by the length of the text.
-/

namespace Shorthand.Json

/-- Blanks between the tokens of a text. -/
def isBlank (c : Char) : Bool :=
  c == ' ' || c == '\t' || c == '\n' || c == '\r'

/-- Takes a string behind its opening quote: what is written up to the closing quote, behind `done`
(last first), and what follows. -/
def scanString (done : List Char) : List Char → Option (List Char × List Char)
  | [] => none
  | '"' :: cs => some (done.reverse, cs)
  | '\\' :: 'u' :: a :: b :: c :: d :: cs =>
    if (hexQuad? a b c d).isSome then scanString (d :: c :: b :: a :: 'u' :: '\\' :: done) cs
    else none
  | '\\' :: c :: cs => if (shortEscape? c).isSome then scanString (c :: '\\' :: done) cs else none
  | c :: cs => if c = '\\' ∨ c.toNat < 0x20 then none else scanString (c :: done) cs

/-- Takes at least one digit. -/
def scanDigits (cs : List Char) : Option (List Char × List Char) :=
  let digits := cs.takeWhile Numeral.isDigit
  if digits.isEmpty then none else some (digits, cs.dropWhile Numeral.isDigit)

/-- Takes the digits in front of the point, which start with zero only if they are a lone zero. -/
def scanInteger (cs : List Char) : Option (List Char × List Char) :=
  match cs with
  | '0' :: cs => some (['0'], cs)
  | _ => scanDigits cs

/-- Takes a point with digits behind it, if there is one. -/
def scanFraction (cs : List Char) : Option (List Char × List Char) :=
  match cs with
  | '.' :: cs => (scanDigits cs).map fun (digits, rest) => ('.' :: digits, rest)
  | _ => some ([], cs)

/-- Takes an exponent, if there is one. -/
def scanExponent (cs : List Char) : Option (List Char × List Char) :=
  match cs with
  | [] => some ([], [])
  | e :: rest =>
    if e = 'e' ∨ e = 'E' then
      match rest with
      | [] => none
      | sign :: after =>
        if sign = '+' ∨ sign = '-' then
          (scanDigits after).map fun (digits, rest) => (e :: sign :: digits, rest)
        else (scanDigits rest).map fun (digits, rest) => (e :: digits, rest)
    else some ([], cs)

/-- Takes a number. -/
def scanNumber (cs : List Char) : Option (List Char × List Char) := do
  let (sign, cs) := if cs.head? = some '-' then (['-'], cs.drop 1) else ([], cs)
  let (integer, cs) ← scanInteger cs
  let (fraction, cs) ← scanFraction cs
  let (exponent, cs) ← scanExponent cs
  return (sign ++ integer ++ fraction ++ exponent, cs)

/-- An array or object that is not closed yet, its contents last first. -/
inductive Open where
  | array (items : List Json)
  /-- An object whose next value belongs to `key`. -/
  | object (members : List (String × Json)) (key : String)

/-- What has to come next. -/
inductive Expected where
  | value
  /-- The first item of an array, or its end. -/
  | firstItem
  /-- The first key of an object, or its end. -/
  | firstKey
  /-- A key of an object that has the given members, last first. -/
  | key (members : List (String × Json))
  /-- What follows a finished value. -/
  | separator (value : Json)

/-- A step of the reader: what has to come next, what is open, and the rest of the text. -/
abbrev ReadStep := Expected × List Open × List Char

/-- Takes a key and the colon behind it. -/
def stepKey (members : List (String × Json)) (stack : List Open) (cs : List Char) :
    Option ReadStep := do
  match cs with
  | '"' :: cs =>
    let (key, cs) ← scanString [] cs
    match cs.dropWhile isBlank with
    | ':' :: cs => return (.value, .object members (String.ofList key) :: stack, cs)
    | _ => none
  | _ => none

/-- Takes the start of a value, which is the whole of it unless it is an array or an object. -/
def stepValue (stack : List Open) (cs : List Char) : Option ReadStep :=
  match cs with
  | 'n' :: 'u' :: 'l' :: 'l' :: cs => some (.separator .null, stack, cs)
  | 't' :: 'r' :: 'u' :: 'e' :: cs => some (.separator (.bool true), stack, cs)
  | 'f' :: 'a' :: 'l' :: 's' :: 'e' :: cs => some (.separator (.bool false), stack, cs)
  | '"' :: cs => do
    let (written, cs) ← scanString [] cs
    return (.separator (.string (String.ofList written)), stack, cs)
  | '[' :: cs => some (.firstItem, stack, cs)
  | '\x7b' :: cs => some (.firstKey, stack, cs)
  | cs => do
    let (written, cs) ← scanNumber cs
    return (.separator (.number (String.ofList written)), stack, cs)

/-- Takes what follows a value inside of an array or an object. -/
def stepSeparator (value : Json) (enclosing : Open) (stack : List Open) (cs : List Char) :
    Option ReadStep :=
  match enclosing, cs with
  | .array items, ',' :: cs => some (.value, .array (value :: items) :: stack, cs)
  | .array items, ']' :: cs => some (.separator (.array (value :: items).reverse), stack, cs)
  | .object members key, ',' :: cs => some (.key ((key, value) :: members), stack, cs)
  | .object members key, '\x7d' :: cs =>
    some (.separator (.object ((key, value) :: members).reverse), stack, cs)
  | _, _ => none

/-- Takes steps until the value is finished and the text is at its end, at most `fuel` of them. -/
def readFrom : (fuel : Nat) → Expected → List Open → List Char → Option Json
  | 0, _, _, _ => none
  | fuel + 1, expected, stack, cs => do
    let cs := cs.dropWhile isBlank
    match expected, stack, cs with
    | .separator value, [], [] => some value
    | .separator _, [], _ :: _ => none
    | .separator value, enclosing :: stack, cs =>
      let (expected, stack, cs) ← stepSeparator value enclosing stack cs
      readFrom fuel expected stack cs
    | .firstItem, stack, ']' :: cs => readFrom fuel (.separator (.array [])) stack cs
    | .firstItem, stack, cs =>
      let (expected, stack, cs) ← stepValue (.array [] :: stack) cs
      readFrom fuel expected stack cs
    | .firstKey, stack, '\x7d' :: cs => readFrom fuel (.separator (.object [])) stack cs
    | .firstKey, stack, cs =>
      let (expected, stack, cs) ← stepKey [] stack cs
      readFrom fuel expected stack cs
    | .key members, stack, cs =>
      let (expected, stack, cs) ← stepKey members stack cs
      readFrom fuel expected stack cs
    | .value, stack, cs =>
      let (expected, stack, cs) ← stepValue stack cs
      readFrom fuel expected stack cs

/-- The value of a JSON text. -/
def parse? (s : String) : Option Json :=
  readFrom (s.length + 2) .value [] s.toList

end Shorthand.Json
