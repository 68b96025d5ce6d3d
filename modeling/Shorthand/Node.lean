import Shorthand.Attribute
import Shorthand.Repeat

/-!
# Nodes

The data of one node of an abbreviation: a name, a text, attributes in order, a repeat and the mark
that the element closes itself. Where a node stands is the tree's business.

A node with no name, no text and no attributes is a **group**: it only holds its children together.
-/

namespace Shorthand

/-- The data of a node. -/
structure Node where
  name : Option String := none
  text : Option String := none
  attributes : List Attribute := []
  repeats : Option Repeat := none
  selfClosing : Bool := false
  deriving DecidableEq, Repr

namespace Node

/-- Does the node only hold its children together? -/
def isGroup (n : Node) : Bool :=
  n.name.isNone && n.text.isNone && n.attributes.isEmpty

/-- The repeat that is still to be expanded. -/
def pendingRepeat (n : Node) : Option Repeat :=
  n.repeats.filter Repeat.isPending

/-! ### Attributes by name -/

/-- The first attribute of that name. -/
def attribute? (n : Node) (name : String) : Option Attribute :=
  n.attributes.find? fun a => a.name = some name

/-- Is there an attribute of that name? -/
def hasAttribute (n : Node) (name : String) : Bool :=
  (n.attribute? name).isSome

/-- Changes the first attribute that has the name. -/
def updateFirst (name : Option String) (f : Attribute → Attribute) :
    List Attribute → List Attribute
  | [] => []
  | a :: as => if a.name = name then f a :: as else a :: updateFirst name f as

/-- Puts an attribute in the place of the first one of the same name, or at the end. Attributes
without a name count as having the same one. -/
def setAttribute (n : Node) (a : Attribute) : Node :=
  if n.attributes.any fun b => b.name = a.name then
    { n with attributes := updateFirst a.name (fun _ => a) n.attributes }
  else { n with attributes := n.attributes ++ [a] }

/-- Removes the first attribute of that name. -/
def eraseAttribute (n : Node) (name : String) : Node :=
  { n with attributes := n.attributes.eraseP fun a => a.name = some name }

/-! ### Classes -/

/-- The tokens of the `class` attribute; none while it holds plain text. -/
def classes (n : Node) : List String :=
  match n.attribute? "class" with
  | some { value := some (.tokens list), .. } => list
  | _ => []

/-- Does the `class` attribute hold the token, white space around it apart? -/
def hasClass (n : Node) (token : String) : Bool :=
  n.classes.contains (Text.trimmed token)

/-- Changes the token set of the `class` attribute, whatever its value was, if there is one. -/
def updateClass (n : Node) (f : List String → List String) : Node :=
  let retoken := fun (a : Attribute) => { a with value := some (.tokens (f a.tokens)) }
  { n with attributes := updateFirst (some "class") retoken n.attributes }

/-- Adds a token, less the white space around it, to the `class` attribute. An empty token still
makes the attribute, so that a lone `.` gives an empty class. -/
def addClass (n : Node) (token : String) : Node :=
  if n.hasAttribute "class" then
    n.updateClass fun tokens => Attribute.addToken tokens (Text.trimmed token)
  else n.setAttribute (Attribute.named "class" (Text.trimmed token))

/-- Removes a token, less the white space around it, from the `class` attribute. -/
def removeClass (n : Node) (token : String) : Node :=
  n.updateClass fun tokens => tokens.filter (· != Text.trimmed token)

end Node

end Shorthand
