/-!
# Byte offsets

Positions in a text are reported in bytes of its UTF-8 form. This module measures a list of
characters in bytes and cuts it at byte offsets; an offset inside a character cuts nothing.
-/

namespace Shorthand.Text

/-- The number of bytes that the UTF-8 form of the characters takes. -/
def byteLength (cs : List Char) : Nat :=
  cs.foldl (fun n c => n + c.utf8Size) 0

@[simp] theorem byteLength_nil : byteLength [] = 0 := rfl

theorem foldl_utf8Size (cs : List Char) (n : Nat) :
    cs.foldl (fun n c => n + c.utf8Size) n = n + byteLength cs := by
  unfold byteLength
  induction cs generalizing n with
  | nil => rfl
  | cons c cs ih =>
    simp only [List.foldl_cons]
    rw [ih, ih (0 + c.utf8Size)]
    omega

@[simp] theorem byteLength_cons (c : Char) (cs : List Char) :
    byteLength (c :: cs) = c.utf8Size + byteLength cs := by
  have h := foldl_utf8Size cs (0 + c.utf8Size)
  simpa [byteLength] using h

@[simp] theorem byteLength_append (cs ds : List Char) :
    byteLength (cs ++ ds) = byteLength cs + byteLength ds := by
  induction cs with
  | nil => simp
  | cons c cs ih => simp [ih, Nat.add_assoc]

@[simp] theorem byteLength_reverse (cs : List Char) : byteLength cs.reverse = byteLength cs := by
  induction cs with
  | nil => rfl
  | cons c cs ih => simp [ih, Nat.add_comm]

/-- The characters split at byte offset `n`, the first part reversed onto `taken`. There is no such
split when the offset is inside a character or past the end. -/
def splitAtByteFrom (taken : List Char) : Nat → List Char → Option (List Char × List Char)
  | 0, cs => some (taken.reverse, cs)
  | _ + 1, [] => none
  | n + 1, c :: cs =>
    if c.utf8Size ≤ n + 1 then splitAtByteFrom (c :: taken) (n + 1 - c.utf8Size) cs else none
termination_by _ cs => cs.length

/-- The characters between two byte offsets, if both are boundaries and in order. -/
def sliceBytes (start stop : Nat) (cs : List Char) : Option (List Char) := do
  if stop < start then none
  let (_, rest) ← splitAtByteFrom [] start cs
  let (slice, _) ← splitAtByteFrom [] (stop - start) rest
  return slice

end Shorthand.Text
