import Shorthand.Forest
import Shorthand.Item

/-!
# What items mean

The forest that a sequence of items stands for, computed without any links. An outline keeps, for the
part that is being filled and for each group around it, the siblings found so far and the elements
that are still open above them.

Climbing ends at the start of a group, since the elements above belong to another spot.
-/

namespace Shorthand

/-- Where the next branch goes: behind the siblings found so far (last first), inside of the open
elements, innermost first, each with the siblings in front of it (last first). -/
structure Spot where
  siblings : List Branch := []
  openNodes : List (Node × List Branch) := []

namespace Spot

/-- Puts branches behind the siblings. -/
def add (s : Spot) (branches : Forest) : Spot :=
  { s with siblings := branches.reverse ++ s.siblings }

/-- Closes the innermost open element, if there is one. -/
def climb (s : Spot) : Spot :=
  match s.openNodes with
  | [] => s
  | (node, siblings) :: openNodes => ⟨.mk node s.siblings.reverse :: siblings, openNodes⟩

/-- Closes the given number of open elements, or all of them if there are fewer. -/
def climbBy (s : Spot) : Nat → Spot
  | 0 => s
  | levels + 1 => s.climb.climbBy levels

/-- Puts an element behind the siblings and goes where its joint says. -/
def addElement (s : Spot) (node : Node) : Joint → Spot
  | .beside => s.add [.mk node []]
  | .inside => ⟨[], (node, s.siblings) :: s.openNodes⟩
  | .up levels => (s.add [.mk node []]).climbBy levels

/-- The forest of a spot. -/
def forest (s : Spot) : Forest :=
  (s.climbBy s.openNodes.length).siblings.reverse

end Spot

/-- The spot that is being filled, and the spots around it, innermost first. -/
structure Outline where
  spot : Spot := {}
  around : List Spot := []

namespace Outline

/-- Adds an item. A group end needs a group around. -/
def add? (o : Outline) : Item → Option Outline
  | .groupStart => some ⟨{}, o.spot :: o.around⟩
  | .groupEnd repeats =>
    match o.around with
    | [] => none
    | spot :: around =>
      match repeats with
      | none => some ⟨spot.add o.spot.forest, around⟩
      | some r => some ⟨spot.add [.mk { repeats := some r } o.spot.forest], around⟩
  | .element node joint => some ⟨o.spot.addElement node joint, o.around⟩

/-- The forest of an outline that no group is left open in. -/
def forest? (o : Outline) : Option Forest :=
  if o.around.isEmpty then some o.spot.forest else none

end Outline

/-- The forest that a sequence of items stands for, if its groups match. -/
def Forest.ofItems? (items : List Item) : Option Forest := do
  (← items.foldlM Outline.add? {}).forest?

/-- The items from a cursor on, behind those in `found` (last first). -/
def Item.readAllFrom (found : List Item) (c : Cursor) : Except Failure (List Item) :=
  if c.atEnd then .ok found.reverse
  else
    match _h : Item.read c with
    | .error failure => .error failure
    | .ok (item, c') => readAllFrom (item :: found) c'
termination_by c.rest.length
decreasing_by exact Item.length_rest_of_read _h

/-- The items from a cursor to the end. -/
def Item.readAll (c : Cursor) : Except Failure (List Item) :=
  readAllFrom [] c

end Shorthand
