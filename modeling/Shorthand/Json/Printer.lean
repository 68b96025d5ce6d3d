import Shorthand.Json

/-!
# Writing JSON

Writes a value without blanks, members in the order in which they are given.
-/

namespace Shorthand.Json

mutual

/-- A value behind the text `out`. -/
def writeTo (out : String) : Json → String
  | .null => out ++ "null"
  | .bool true => out ++ "true"
  | .bool false => out ++ "false"
  | .number written => out ++ written
  | .string written => out ++ "\"" ++ written ++ "\""
  | .array items => writeItems (out ++ "[") items ++ "]"
  | .object members => writeMembers (out ++ "\x7b") members ++ "\x7d"

/-- The items of an array behind the text `out`. -/
def writeItems (out : String) : List Json → String
  | [] => out
  | [item] => writeTo out item
  | item :: items => writeItems (writeTo out item ++ ",") items

/-- The members of an object behind the text `out`. -/
def writeMembers (out : String) : List (String × Json) → String
  | [] => out
  | [member] => writeMember out member
  | member :: members => writeMembers (writeMember out member ++ ",") members

/-- A member of an object behind the text `out`. -/
def writeMember (out : String) : String × Json → String
  | (key, item) => writeTo (out ++ "\"" ++ key ++ "\":") item

end

/-- A value as a JSON text. -/
def render (j : Json) : String :=
  writeTo "" j

end Shorthand.Json
