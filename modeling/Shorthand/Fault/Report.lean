import Shorthand.Fault
import Shorthand.Snippet.Terminal
import Shorthand.Text.Offset

/-!
# Reports

A fault is reported as a snippet of the text that it is about, drawn by whatever renderer is at hand
(`Fault.reportBy`). The span that is marked is given in bytes, from the offset of the fault on, and
is one byte long; at the end of the text it is empty.
-/

namespace Shorthand.Fault

/-- The start of what is marked: the offset, or the byte length of the text if that is less. -/
def markStart (f : Fault) : Nat :=
  min f.offset (Text.byteLength f.input.toList)

/-- The end of what is marked. -/
def markEnd (f : Fault) : Nat :=
  min (f.markStart + 1) (Text.byteLength f.input.toList)

/-- What is handed to the renderer. -/
def snippet (f : Fault) (file : String) : Snippet where
  file := file
  source := f.input
  message := f.cause.message
  position := f.markStart
  start := f.markStart
  stop := f.markEnd
  remark := f.cause.remark

/-- The report of a fault in the text of a file. If it cannot be drawn, the fault is put into words.
-/
def reportBy (r : Renderer) (f : Fault) (file : String) : String :=
  (r.draw (f.snippet file)).getD f.message

/-- The report for a terminal. -/
def report (f : Fault) (file : String) : String :=
  f.reportBy .terminal file

end Shorthand.Fault
