import Shorthand.Expansion
import Shorthand.Expansion.Json
import Shorthand.Fault.Report
import Shorthand.Forest.Expansion
import Shorthand.Forest.Printer
import Shorthand.Item.Outline
import Shorthand.Json.Printer
import Shorthand.Json.Reader
import Shorthand.Payload.Grammar
import Shorthand.Proofs.Expansion.ExactFit
import Shorthand.Proofs.Node.WellFormed
import Shorthand.Proofs.Reader.Abbreviation
import Shorthand.Proofs.Reader.Element
import Shorthand.Proofs.Tree.RoundTrip
import Shorthand.Proofs.Tree.Invariant
import Shorthand.Tree.Coherent
import Shorthand.Tree.Forest
import Shorthand.Tree.Json
import Shorthand.Tree.Printer
import Shorthand.Proofs.Reader.Locality
import Shorthand.Proofs.Tree.Grouping
import Shorthand.Proofs.Tree.Listing
import Shorthand.Proofs.Attribute.KeptTokens
import Shorthand.Proofs.Forest.Loose
import Shorthand.Proofs.Node.Settled
import Shorthand.Proofs.Tree.Stable
import Shorthand.Proofs.Tree.ParsedNodes
import Shorthand.Proofs.Reader.Refusals
import Shorthand.Proofs.Reader.Payload
import Shorthand.Proofs.Reader.Escaping
import Shorthand.Proofs.Node.Classes
import Shorthand.Proofs.Tree.Faults
import Shorthand.Proofs.Scanner.Basic
import Shorthand.Proofs.Scanner.Values
import Shorthand.Proofs.Scanner.Elements
import Shorthand.Proofs.Scanner.Safety
import Shorthand.Proofs.Expansion.WholeCopies
import Shorthand.Proofs.Tree.Descendants
import Shorthand.Proofs.Tree.IsolatedCopy
import Shorthand.Proofs.Expansion.Idempotent
import Shorthand.Proofs.Tree.Sequences
import Shorthand.Proofs.Tree.Walk
import Shorthand.Proofs.Expansion.PathProducts
import Shorthand.Proofs.Expansion.Growth
import Shorthand.Proofs.Expansion.Ownership
import Shorthand.Proofs.Expansion.Strict
import Shorthand.Proofs.Reader.Counts
import Shorthand.Proofs.Snippet.Marks
import Shorthand.Proofs.Snippet.Terminal
import Shorthand.Proofs.Fault.Marks
