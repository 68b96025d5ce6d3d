import Shorthand.Cursor

/-!
# Repeats

A repeat asks for copies of what it stands behind: `*3` for three, a bare `*` for as many as a later
step decides. It is *pending* until expansion puts the number of the copy into it.
-/

namespace Shorthand

/-- A repeat: the number of copies asked for, none for a bare `*`, and the number of the copy that
carries it, none as long as it is pending. -/
structure Repeat where
  count : Option Nat
  copy : Option Nat := none
  deriving DecidableEq, Repr

namespace Repeat

/-- Is the repeat still to be expanded? -/
def isPending (r : Repeat) : Bool :=
  r.copy.isNone

/-- How many copies are made; a bare `*` makes one. -/
def copies (r : Repeat) : Nat :=
  r.count.getD 1

/-- The count that a run of digits asks for: none without a digit, and at most `Numeral.maxCount`. -/
def countOf (digits : List Char) : Option Nat :=
  if digits.isEmpty then none else some (min (Numeral.value digits) Numeral.maxCount)

/-- Reads a repeat, if the cursor is on a `*`. -/
def read (c : Cursor) : Option Repeat × Cursor :=
  match c.eat? (· == '*') with
  | none => (none, c)
  | some c =>
    let (digits, c) := c.takeRun Numeral.isDigit
    (some { count := countOf digits }, c)

/-- A repeat as it is written. With `stamps`, the number of the copy follows as `@k`. -/
def write (stamps : Bool) (r : Repeat) : String :=
  let count := match r.count with
    | some n => Numeral.render n
    | none => ""
  let stamp := match stamps, r.copy with
    | true, some k => "@" ++ Numeral.render k
    | _, _ => ""
  "*" ++ count ++ stamp

/-- Reading a repeat never leaves more to read. -/
theorem length_rest_read_le (c : Cursor) : (read c).2.rest.length ≤ c.rest.length := by
  unfold read
  split
  · exact Nat.le_refl _
  · next heat =>
    have hlt := Cursor.length_rest_of_eat? heat
    exact Nat.le_trans (Cursor.length_rest_takeRun_le _ _) (Nat.le_of_lt hlt)

/-- A repeat that was read leaves less to read. -/
theorem length_rest_of_read {c c' : Cursor} {r : Repeat} (h : read c = (some r, c')) :
    c'.rest.length < c.rest.length := by
  unfold read at h
  split at h
  · simp at h
  · next heat =>
    have hlt := Cursor.length_rest_of_eat? heat
    simp only [Prod.mk.injEq] at h
    rw [← h.2]
    exact Nat.lt_of_le_of_lt (Cursor.length_rest_takeRun_le _ _) hlt

/-- Where no repeat is, nothing is read. -/
theorem eq_of_read_none {c c' : Cursor} (h : read c = (none, c')) : c' = c := by
  unfold read at h
  split at h
  · simpa [eq_comm] using h
  · simp at h

end Repeat

end Shorthand
