import Shorthand.Literal
import Shorthand.Node.Reader

/-!
# Writing elements

An element is written with its name, its attributes in order, its text, its repeat and the mark that
it closes itself. Classes and ids take the short forms `.a.b` and `#x` where these read back as the
same attribute; attributes in a row without a short form share one list.
-/

namespace Shorthand

namespace Attribute

/-- The short form of an attribute, if it has one. -/
def short? (a : Attribute) : Option String :=
  if a.options ≠ {} then none
  else
    match a.name, a.value with
    | some "class", some (.tokens list) =>
      if list.isEmpty then some "."
      else if list.all fun token => token.toList.all Node.isNameChar then
        some (String.join (list.map fun token => "." ++ token))
      else none
    | some "id", some (.text content) =>
      if content.toList.all Node.isNameChar then some ("#" ++ content) else none
    | _, _ => none

/-- An attribute as an entry of a list. -/
def write (a : Attribute) : String :=
  match a.name with
  | none => Literal.write (a.valueText.getD "")
  | some name =>
    let mark := if a.options.implied then "!" else ""
    let point := if a.options.boolean then "." else ""
    let value := match a.valueText with
      | none => ""
      | some text =>
        if a.options.isExpression then "=\x7b" ++ text ++ "\x7d" else "=" ++ Literal.write text
    mark ++ name ++ point ++ value

/-- A list of the given attributes, last first; nothing if there are none. -/
def writeList (reversed : List Attribute) : String :=
  if reversed.isEmpty then ""
  else "[" ++ " ".intercalate (reversed.reverse.map write) ++ "]"

/-- The attributes in order behind the text `done`, where `row` holds those without a short form that
came last, last first. -/
def writeAllFrom (done : String) (row : List Attribute) : List Attribute → String
  | [] => done ++ writeList row
  | a :: as =>
    match a.short? with
    | some short => writeAllFrom (done ++ writeList row ++ short) [] as
    | none => writeAllFrom done (a :: row) as

/-- All attributes of a node. -/
def writeAll (attributes : List Attribute) : String :=
  writeAllFrom "" [] attributes

end Attribute

namespace Node

/-- A node that is no group, without its children. -/
def write (stamps : Bool) (n : Node) : String :=
  let text := match n.text with
    | some text => "\x7b" ++ text ++ "\x7d"
    | none => ""
  let repeats := match n.repeats with
    | some r => r.write stamps
    | none => ""
  let slash := if n.selfClosing then "/" else ""
  n.name.getD "" ++ Attribute.writeAll n.attributes ++ text ++ repeats ++ slash

end Node

end Shorthand
