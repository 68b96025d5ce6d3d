import Shorthand.Forest
import Shorthand.Node.Printer

/-!
# Abbreviations from forests

How a forest is written, by recursion: a group in parentheses with its repeat behind it, any other
node with its children after `>`, and siblings joined by `+`. Of the siblings, those that are not
last, are no groups and have children stand in parentheses.
-/

namespace Shorthand

/-- Does a branch need parentheses when a sibling follows? -/
def Branch.needsParens (b : Branch) : Bool :=
  !b.node.isGroup && !b.children.isEmpty

mutual

/-- The abbreviation of a branch. -/
def Branch.render (stamps : Bool) : Branch → String
  | .mk node children =>
    if node.isGroup then
      let repeats := match node.repeats with
        | some r => r.write stamps
        | none => ""
      "(" ++ Forest.render stamps children ++ ")" ++ repeats
    else if children.isEmpty then node.write stamps
    else node.write stamps ++ ">" ++ Forest.render stamps children

/-- The abbreviation of a forest. -/
def Forest.render (stamps : Bool) : List Branch → String
  | [] => ""
  | [b] => b.render stamps
  | b :: bs =>
    let text := if b.needsParens then "(" ++ b.render stamps ++ ")" else b.render stamps
    text ++ "+" ++ Forest.render stamps bs

end

end Shorthand
