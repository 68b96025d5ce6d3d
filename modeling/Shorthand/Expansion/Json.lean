import Shorthand.Expansion.Options
import Shorthand.Json.Reader

/-!
# Settings as JSON

Settings are an object with the keys `limit` and `strict`, or an array of the two. Either may be
missing, from an array at its end; unknown keys of an object do not matter, but a known one may not be
there twice.
-/

namespace Shorthand.Expansion.Options

/-- Settings as JSON. -/
def toJson (o : Options) : Json :=
  .object [("limit", Json.ofOption Json.ofNat o.limit), ("strict", .bool o.strict)]

/-- The settings that two values, which may be missing, stand for. -/
def ofFields? (limit strict : Option Json) : Option Options := do
  return {
    limit := ← Json.option? (Json.nat? Numeral.maxCount) limit
    strict := ← strict.elim (some false) Json.bool? }

/-- The settings that a value stands for. -/
def ofJson? (j : Json) : Option Options :=
  match j with
  | .array [] => ofFields? none none
  | .array [limit] => ofFields? (some limit) none
  | .array [limit, strict] => ofFields? (some limit) (some strict)
  | .array _ => none
  | _ => do
    let members ← j.members?
    ofFields? (← Json.unique? members "limit") (← Json.unique? members "strict")

/-- The settings that a JSON text stands for. -/
def parse? (s : String) : Option Options := do
  ofJson? (← Json.parse? s)

end Shorthand.Expansion.Options
