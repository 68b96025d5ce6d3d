import Shorthand.Text.WhiteSpace

/-!
# Attributes

An attribute has a name, or none if only a value was written, and perhaps a value. The value of the
attribute `class` is a set of tokens, held as a list without duplicates in the order of first
insertion; every other value is plain text.
-/

namespace Shorthand

/-- The value of an attribute. -/
inductive Attribute.Value where
  | text (content : String)
  | tokens (list : List String)
  deriving DecidableEq, Repr

/-- How an attribute was written. -/
structure Attribute.Options where
  /-- Written `name.`: the value is the name itself. -/
  boolean : Bool := false
  /-- Written `!name`: to be shown only once it has a value. -/
  implied : Bool := false
  /-- What stood in front of an expression value. -/
  before : Option String := none
  /-- What stood behind an expression value. -/
  after : Option String := none
  deriving DecidableEq, Repr

/-- An attribute. The name is missing if only a value was written. -/
structure Attribute where
  name : Option String
  value : Option Attribute.Value
  options : Attribute.Options := {}
  deriving DecidableEq, Repr

namespace Attribute

/-! ### Token sets -/

/-- Adds a token at the end, unless it is empty or there already. -/
def addToken (tokens : List String) (token : String) : List String :=
  if token = "" ∨ token ∈ tokens then tokens else tokens ++ [token]

/-- The distinct words of a text, in the order of their first occurrence. -/
def tokensOf (text : String) : List String :=
  ((Text.words text.toList).map String.ofList).foldl addToken []

/-- A value written out; tokens are joined by single spaces. -/
def Value.render : Value → String
  | .text content => content
  | .tokens list => " ".intercalate list

/-! ### Attributes from their parts -/

/-- The attribute of the given name and written value. A `class` always gets a token set. -/
def make (name : Option String) (value : Option String) : Attribute :=
  if name = some "class" then { name, value := some (.tokens (tokensOf (value.getD ""))) }
  else { name, value := value.map .text }

/-- A named attribute with a value. -/
def named (name value : String) : Attribute :=
  make (some name) (some value)

/-- A value without a name. -/
def anonymous (value : String) : Attribute :=
  make none (some value)

/-- The value as one text. -/
def valueText (a : Attribute) : Option String :=
  a.value.map Value.render

/-- The value as a token set: text is split into its words, and no value is the empty set. -/
def tokens (a : Attribute) : List String :=
  match a.value with
  | some (.text content) => tokensOf content
  | some (.tokens list) => list
  | none => []

/-- Was the value written as an expression, between braces? -/
def Options.isExpression (o : Options) : Bool :=
  o.before = some "\x7b" && o.after = some "\x7d"

end Attribute

end Shorthand
