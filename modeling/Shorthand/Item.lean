import Shorthand.Node.Reader

/-!
# Items

An abbreviation is a sequence of items: elements, each with the operator that follows it, and the two
ends of groups. What the operators mean is not decided here; an item only says what was written.
-/

namespace Shorthand

/-- How the next item is placed with respect to an element. -/
inductive Joint where
  /-- Beside it: after `+`, or after no operator at all. -/
  | beside
  /-- Inside it: after `>`. -/
  | inside
  /-- A number of levels up: after as many `^`. -/
  | up (levels : Nat)
  deriving DecidableEq, Repr

/-- One item of an abbreviation. -/
inductive Item where
  /-- A `(`. -/
  | groupStart
  /-- A `)` with the repeat behind it, if there is one. A `+` behind that is part of the item. -/
  | groupEnd (repeats : Option Repeat)
  /-- An element with the operator behind it. -/
  | element (node : Node) (joint : Joint)
  deriving DecidableEq, Repr

/-- Reads the operator behind an element. -/
def Joint.read (c : Cursor) : Joint × Cursor :=
  match c.rest with
  | '+' :: _ => (.beside, c.advance)
  | '>' :: _ => (.inside, c.advance)
  | '^' :: _ =>
    let climbs := c.run (· == '^')
    (.up climbs.1.length, climbs.2)
  | _ => (.beside, c)

namespace Item

/-- Reads the end of a group behind its `)`. -/
def readGroupEnd (c : Cursor) : Item × Cursor :=
  let (repeats, c) := Repeat.read c
  (.groupEnd repeats, (c.eat? (· == '+')).getD c)

/-- Reads one item. -/
def read (c : Cursor) : Except Failure (Item × Cursor) :=
  match c.rest with
  | '(' :: _ => .ok (.groupStart, c.advance)
  | ')' :: _ => .ok (readGroupEnd c.advance)
  | _ => do
    let (node, c) ← Node.read c
    let (joint, c) := Joint.read c
    return (.element node joint, c)

/-! ### What the readers take -/

theorem length_rest_joint_le (c : Cursor) : (Joint.read c).2.rest.length ≤ c.rest.length := by
  unfold Joint.read
  split
  · next h => exact Nat.le_of_lt (Cursor.length_rest_advance (by simp [h]))
  · next h => exact Nat.le_of_lt (Cursor.length_rest_advance (by simp [h]))
  · exact Cursor.length_rest_run_le _ _
  · exact Nat.le_refl _

theorem length_rest_readGroupEnd_le (c : Cursor) :
    (readGroupEnd c).2.rest.length ≤ c.rest.length := by
  refine Nat.le_trans ?_ (Repeat.length_rest_read_le c)
  simp only [readGroupEnd]
  cases heat : (Repeat.read c).2.eat? (· == '+') with
  | none => exact Nat.le_refl _
  | some c' => exact Nat.le_of_lt (Cursor.length_rest_of_eat? heat)

/-- An item that was read leaves less to read. -/
theorem length_rest_of_read {item : Item} {c c' : Cursor} (h : read c = .ok (item, c')) :
    c'.rest.length < c.rest.length := by
  simp only [read, bind, Except.bind, pure, Except.pure] at h
  split at h
  · next hrest =>
    simp only [Except.ok.injEq, Prod.mk.injEq] at h
    rw [← h.2]
    exact Cursor.length_rest_advance (by simp [hrest])
  · next hrest =>
    simp only [Except.ok.injEq] at h
    have hle := length_rest_readGroupEnd_le c.advance
    rw [h] at hle
    exact Nat.lt_of_le_of_lt hle (Cursor.length_rest_advance (by simp [hrest]))
  · split at h
    · simp at h
    · next hnode =>
      simp only [Except.ok.injEq, Prod.mk.injEq] at h
      rw [← h.2]
      exact Nat.lt_of_le_of_lt (length_rest_joint_le _) (Node.length_rest_of_read hnode)

end Item

end Shorthand
