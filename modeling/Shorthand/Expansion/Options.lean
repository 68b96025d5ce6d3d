import Shorthand.Numeral
import Shorthand.Text.WhiteSpace

/-!
# Settings of an expansion

How many nodes an expansion may produce, and whether a repeat without a count is refused. A limit of
zero means no limit, wherever it is written.
-/

namespace Shorthand.Expansion

/-- How many nodes an expansion may produce. -/
inductive NodeBudget where
  | unbounded
  | limited (limit : Nat) (pos : 0 < limit)
  deriving DecidableEq, Repr

namespace NodeBudget

/-- The limit, if there is one. -/
def limit? : NodeBudget → Option Nat
  | .unbounded => none
  | .limited limit _ => some limit

/-- The budget of a number; zero means no limit. -/
def ofNat (n : Nat) : NodeBudget :=
  if h : 0 < n then .limited n h else .unbounded

/-- The budget of a number that may be missing. -/
def ofOption (n : Option Nat) : NodeBudget :=
  n.elim .unbounded ofNat

/-- The budget that a text asks for. Whatever is no number means no limit. -/
def ofString (s : String) : NodeBudget :=
  ofOption (Numeral.parse? (Text.trim s.toList))

end NodeBudget

/-- The settings of an expansion. -/
structure Options where
  /-- The largest number of nodes in the result; none and zero mean no limit. -/
  limit : Option Nat := none
  /-- Is a repeat without a count refused? -/
  strict : Bool := false
  deriving DecidableEq, Repr

namespace Options

/-- The budget that the settings give. -/
def budget (o : Options) : NodeBudget :=
  .ofOption o.limit

/-- The settings with another budget. -/
def withBudget (o : Options) (b : NodeBudget) : Options :=
  { o with limit := b.limit? }

/-- The settings with a limit; zero means no limit. -/
def withLimit (o : Options) (limit : Nat) : Options :=
  o.withBudget (.ofNat limit)

end Options

end Shorthand.Expansion
