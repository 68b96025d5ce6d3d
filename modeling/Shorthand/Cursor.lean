import Shorthand.Fault
import Shorthand.Text.Offset

/-!
# Cursor

A place in a text, held as what is **before** it (last character first) and what is still to come.
The text itself and the byte position are views of that pair, so a cursor is always between two
characters and never past the end. Every reader of the notation takes a cursor and gives back the
cursor behind what it read.

Design points:

* a cursor also remembers where the **current token** starts; only `takeRun` starts a token;
* a reader that fails still says where it stopped (`Failure.cursor`), which is not always where the
  fault shows (`Failure.offset`): an unclosed literal is noticed at the end of the text, but
  nothing behind its opening quote has been read.
-/

namespace Shorthand

open Text

/-- A place in a text. -/
structure Cursor where
  /-- The characters already read, last first. -/
  before : List Char
  /-- The characters still to be read. -/
  rest : List Char
  /-- The characters in front of the current token, last first. -/
  mark : List Char := []
  deriving DecidableEq, Repr

namespace Cursor

/-- The start of a text. -/
def ofList (cs : List Char) : Cursor :=
  { before := [], rest := cs }

/-- The start of a string. -/
def ofString (s : String) : Cursor :=
  ofList s.toList

/-- The whole text. -/
def source (c : Cursor) : List Char :=
  c.before.reverse ++ c.rest

/-- The byte offset of the place. -/
def pos (c : Cursor) : Nat :=
  byteLength c.before

/-- Is nothing left to read? -/
def atEnd (c : Cursor) : Bool :=
  c.rest.isEmpty

/-- The next character, if there is one. -/
def peek (c : Cursor) : Option Char :=
  c.rest.head?

/-- The place behind the characters `taken`, when `rest` is what follows them. -/
def past (c : Cursor) (taken rest : List Char) : Cursor :=
  { c with before := taken.reverse ++ c.before, rest }

/-- The place behind the next character; the end stays where it is. -/
def advance (c : Cursor) : Cursor :=
  match c.rest with
  | [] => c
  | x :: rest => c.past [x] rest

/-- The place behind the next character, if that character is in the class. -/
def eat? (p : Char → Bool) (c : Cursor) : Option Cursor :=
  match c.rest with
  | [] => none
  | x :: rest => if p x then some (c.past [x] rest) else none

/-- The place behind a maximal run of characters of the class, and the run. -/
def run (p : Char → Bool) (c : Cursor) : List Char × Cursor :=
  (c.rest.takeWhile p, c.past (c.rest.takeWhile p) (c.rest.dropWhile p))

/-- The place behind a maximal run of characters of the class. -/
def skip (p : Char → Bool) (c : Cursor) : Cursor :=
  (c.run p).2

/-- Starts a token here and reads a maximal run of characters of the class as its text. -/
def takeRun (p : Char → Bool) (c : Cursor) : List Char × Cursor :=
  { c with mark := c.before }.run p

/-- The text of the current token. -/
def token (c : Cursor) : List Char :=
  (c.before.take (c.before.length - c.mark.length)).reverse

/-- The place `n` characters back, or the start of the text if it is nearer. -/
def back (n : Nat) (c : Cursor) : Cursor :=
  { c with before := c.before.drop n, rest := (c.before.take n).reverse ++ c.rest }

/-- The text between two byte offsets, if both are between characters and in order. -/
def slice? (start stop : Nat) (c : Cursor) : Option (List Char) :=
  sliceBytes start stop c.source

/-- The fault of the given cause at a byte offset. -/
def faultAt (cause : Cause) (offset : Nat) (c : Cursor) : Fault :=
  { cause, offset, input := String.ofList c.source }

/-- The fault of the given cause at this place. -/
def fault (cause : Cause) (c : Cursor) : Fault :=
  c.faultAt cause c.pos

@[simp] theorem source_ofList (cs : List Char) : (ofList cs).source = cs := rfl

@[simp] theorem rest_past (c : Cursor) (taken rest : List Char) :
    (c.past taken rest).rest = rest := rfl

@[simp] theorem before_past (c : Cursor) (taken rest : List Char) :
    (c.past taken rest).before = taken.reverse ++ c.before := rfl

/-- Moving past what comes next keeps the text. -/
theorem source_past {c : Cursor} {taken rest : List Char} (h : c.rest = taken ++ rest) :
    (c.past taken rest).source = c.source := by
  simp [source, h]

/-- A run takes nothing away from the text. -/
@[simp] theorem source_run (p : Char → Bool) (c : Cursor) : (c.run p).2.source = c.source :=
  source_past List.takeWhile_append_dropWhile.symm

@[simp] theorem source_takeRun (p : Char → Bool) (c : Cursor) :
    (c.takeRun p).2.source = c.source := by
  simp only [takeRun, source_run]
  rfl

@[simp] theorem source_back (n : Nat) (c : Cursor) : (c.back n).source = c.source := by
  have h : (c.before.drop n).reverse ++ (c.before.take n).reverse = c.before.reverse := by
    rw [← List.reverse_append, List.take_append_drop]
  simp only [source, back, ← List.append_assoc, h]

/-- A run leaves no more to read than there was. -/
theorem length_rest_run_le (p : Char → Bool) (c : Cursor) :
    (c.run p).2.rest.length ≤ c.rest.length :=
  (List.dropWhile_suffix p).length_le

theorem length_rest_takeRun_le (p : Char → Bool) (c : Cursor) :
    (c.takeRun p).2.rest.length ≤ c.rest.length :=
  (List.dropWhile_suffix p).length_le

theorem length_rest_skip_le (p : Char → Bool) (c : Cursor) :
    (c.skip p).rest.length ≤ c.rest.length :=
  length_rest_run_le p c

/-- A run of at least one character leaves less to read. -/
theorem length_rest_run_lt {p : Char → Bool} {c : Cursor} (h : (c.run p).1 ≠ []) :
    (c.run p).2.rest.length < c.rest.length := by
  have hsplit : (c.rest.takeWhile p ++ c.rest.dropWhile p).length = c.rest.length :=
    congrArg List.length List.takeWhile_append_dropWhile
  have hpos : 0 < (c.rest.takeWhile p).length := List.length_pos_iff.2 h
  simp only [List.length_append] at hsplit
  simp only [run, rest_past]
  omega

/-- Eating a character leaves less to read. -/
theorem length_rest_of_eat? {p : Char → Bool} {c c' : Cursor} (h : c.eat? p = some c') :
    c'.rest.length < c.rest.length := by
  unfold eat? at h
  split at h
  · simp at h
  · next hrest =>
    split at h
    · cases h
      simp [hrest]
    · simp at h

/-- Advancing leaves less to read, unless the end is reached. -/
theorem length_rest_advance {c : Cursor} (h : c.rest ≠ []) :
    c.advance.rest.length < c.rest.length := by
  unfold advance
  split
  · next hrest => exact absurd hrest h
  · next hrest => simp [hrest]

end Cursor

/-- A reader's refusal: the cause, the byte offset where it shows, and where reading stopped. -/
structure Failure where
  cause : Cause
  offset : Nat
  cursor : Cursor
  deriving DecidableEq, Repr

/-- The fault that a reader's refusal amounts to. -/
def Failure.fault (failure : Failure) : Fault :=
  failure.cursor.faultAt failure.cause failure.offset

namespace Cursor

/-- Refuse to go on here. -/
def fail {α : Type} (cause : Cause) (c : Cursor) : Except Failure (α × Cursor) :=
  .error { cause, offset := c.pos, cursor := c }

/-- Stop here because of something that is missing up to the end of the text. -/
def failAtEnd {α : Type} (cause : Cause) (c : Cursor) : Except Failure (α × Cursor) :=
  .error { cause, offset := byteLength c.source, cursor := c }

end Cursor

end Shorthand
