import Shorthand.Json
import Shorthand.Tree.Basic

/-!
# Trees as JSON

The exchange format of trees: all nodes in the order of their places, detached ones included, each
with its data and its links, and the place of the root. Places are written as 32-bit numbers, counts
as 64-bit ones. Reading takes a record as an object, with keys in any order, or as an array of its
fields; a missing optional field means none.
-/

namespace Shorthand

open Json (option? ofOption)

/-- The largest place that can be written: all 32 bits set. -/
def NodeId.maxIndex : Nat := 0xffffffff

namespace NodeId

/-- A place as JSON. -/
def toJson (id : NodeId) : Json :=
  .ofNat id.index

/-- The place that a value stands for. -/
def ofJson? (j : Json) : Option NodeId :=
  (j.nat? maxIndex).map NodeId.mk

end NodeId

namespace Links

/-- Links as JSON. -/
def toJson (l : Links) : Json :=
  .object
    [("parent", ofOption NodeId.toJson l.parent), ("first_child", ofOption NodeId.toJson l.firstChild),
     ("last_child", ofOption NodeId.toJson l.lastChild),
     ("previous", ofOption NodeId.toJson l.previous), ("next", ofOption NodeId.toJson l.next)]

/-- The links that a value stands for. -/
def ofJson? (j : Json) : Option Links := do
  match ← j.fields? ["parent", "first_child", "last_child", "previous", "next"] with
  | [parent, firstChild, lastChild, previous, next] =>
    return {
      parent := ← option? NodeId.ofJson? parent
      firstChild := ← option? NodeId.ofJson? firstChild
      lastChild := ← option? NodeId.ofJson? lastChild
      previous := ← option? NodeId.ofJson? previous
      next := ← option? NodeId.ofJson? next }
  | _ => none

end Links

namespace Repeat

/-- A requested count as JSON. -/
def countToJson : Option Nat → Json
  | none => .ofString "Unbounded"
  | some n => .object [("Exact", .ofNat n)]

/-- The requested count that a value stands for. -/
def countOfJson? (j : Json) : Option (Option Nat) := do
  match ← j.choice? with
  | ("Unbounded", none) | ("Unbounded", some .null) => return none
  | ("Exact", some n) => return some (← n.nat? Numeral.maxCount)
  | _ => none

/-- A repeat as JSON. -/
def toJson (r : Repeat) : Json :=
  .object [("count", countToJson r.count), ("value", ofOption Json.ofNat r.copy)]

/-- The repeat that a value stands for. -/
def ofJson? (j : Json) : Option Repeat := do
  match ← j.fields? ["count", "value"] with
  | [some count, copy] =>
    return {
      count := ← countOfJson? count
      copy := ← option? (Json.nat? Numeral.maxCount) copy }
  | _ => none

end Repeat

namespace Attribute

/-- A name, or its absence, as JSON. -/
def nameToJson : Option String → Json
  | none => .ofString "Anonymous"
  | some name => .object [("Named", .ofString name)]

/-- The name, or its absence, that a value stands for. -/
def nameOfJson? (j : Json) : Option (Option String) := do
  match ← j.choice? with
  | ("Anonymous", none) | ("Anonymous", some .null) => return none
  | ("Named", some name) => return some (← name.text?)
  | _ => none

/-- The value of an attribute as JSON. -/
def Value.toJson : Value → Json
  | .text content => .object [("Text", .ofString content)]
  | .tokens list => .object [("Tokens", .array (list.map Json.ofString))]

/-- The value of an attribute that a JSON value stands for. -/
def Value.ofJson? (j : Json) : Option Value := do
  match ← j.choice? with
  | ("Text", some content) => return .text (← content.text?)
  | ("Tokens", some (.array items)) => return .tokens (← items.mapM Json.text?)
  | _ => none

/-- How an attribute was written, as JSON. -/
def Options.toJson (o : Options) : Json :=
  .object
    [("boolean", .bool o.boolean), ("implied", .bool o.implied),
     ("before", ofOption Json.ofString o.before), ("after", ofOption Json.ofString o.after)]

/-- The way of writing that a value stands for. -/
def Options.ofJson? (j : Json) : Option Options := do
  match ← j.fields? ["boolean", "implied", "before", "after"] with
  | [some boolean, some implied, before, after] =>
    return {
      boolean := ← boolean.bool?
      implied := ← implied.bool?
      before := ← option? Json.text? before
      after := ← option? Json.text? after }
  | _ => none

/-- An attribute as JSON. -/
def toJson (a : Attribute) : Json :=
  .object
    [("name", nameToJson a.name), ("value", ofOption Value.toJson a.value),
     ("options", a.options.toJson)]

/-- The attribute that a value stands for. -/
def ofJson? (j : Json) : Option Attribute := do
  match ← j.fields? ["name", "value", "options"] with
  | [some name, value, some options] =>
    return {
      name := ← nameOfJson? name
      value := ← option? Value.ofJson? value
      options := ← Options.ofJson? options }
  | _ => none

end Attribute

namespace Slot

/-- A node with its links as JSON. -/
def toJson (s : Slot) : Json :=
  .object
    [("name", ofOption Json.ofString s.node.name), ("value", ofOption Json.ofString s.node.text),
     ("attributes", .array (s.node.attributes.map Attribute.toJson)),
     ("repeat", ofOption Repeat.toJson s.node.repeats), ("self_closing", .bool s.node.selfClosing),
     ("links", s.links.toJson)]

/-- The node with its links that a value stands for. -/
def ofJson? (j : Json) : Option Slot := do
  match ← j.fields? ["name", "value", "attributes", "repeat", "self_closing", "links"] with
  | [name, text, some attributes, repeats, some selfClosing, some links] =>
    let node : Node := {
      name := ← option? Json.text? name
      text := ← option? Json.text? text
      attributes := ← (← attributes.items?).mapM Attribute.ofJson?
      repeats := ← option? Repeat.ofJson? repeats
      selfClosing := ← selfClosing.bool? }
    return { node, links := ← Links.ofJson? links }
  | _ => none

end Slot

namespace Tree

/-- A tree as JSON. -/
def toJson (t : Tree) : Json :=
  .object [("nodes", .array (t.slots.toList.map Slot.toJson)), ("root", t.root.toJson)]

/-- The tree that a value stands for. Whether its links make sense is not looked at. -/
def ofJson? (j : Json) : Option Tree := do
  match ← j.fields? ["nodes", "root"] with
  | [some nodes, some root] =>
    return {
      slots := (← (← nodes.items?).mapM Slot.ofJson?).toArray
      root := ← NodeId.ofJson? root }
  | _ => none

end Tree

end Shorthand
