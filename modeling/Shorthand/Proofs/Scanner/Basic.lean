import Mathlib.Data.PFun
import Shorthand.Proofs.Reader.Refusals

/-!
# Scanning by byte offsets

The readers go through a text from one character to the next, so none of them can lose its place. A
text that is kept in bytes leaves more room for error: a place is a byte offset, which may be inside
a character or past the end, and what is between two offsets exists only if they are in order and
each of them is at a boundary.

A `Scan` is a reader over such a text. It may be **undefined**: it takes a slice that does not
exist, or a difference below zero, or it never ends. A loop (`loop`) is the fixed point of its step,
so not to end is to be undefined too, and a scan that has an outcome has met none of this.

The operations below are those of a cursor. From a place that is a cursor's, each of them is
defined, and has the cursor's result (`run_peek`, `run_advance`, `run_eat`, `run_eatWhile`,
`run_consumeWhile`).
-/

namespace Shorthand

open Text

/-! ### Boundaries and slices -/

namespace Text

/-- The byte offset is between two characters, or at one of the ends. -/
def IsBoundary (cs : List Char) (offset : Nat) : Prop :=
  ∃ before rest, cs = before ++ rest ∧ offset = byteLength before

theorem IsBoundary.le {cs : List Char} {offset : Nat} (h : IsBoundary cs offset) :
    offset ≤ byteLength cs := by
  obtain ⟨before, rest, rfl, rfl⟩ := h
  simp

theorem byteLength_eq_zero {cs : List Char} : byteLength cs = 0 ↔ cs = [] := by
  cases cs with
  | nil => simp
  | cons c cs =>
      have := c.utf8Size_pos
      simp only [byteLength_cons, reduceCtorEq, iff_false]
      omega

theorem byteLength_replicate_space (n : Nat) : byteLength (List.replicate n ' ') = n := by
  induction n with
  | zero => rfl
  | succ n ih =>
      rw [List.replicate_succ, byteLength_cons, ih, Nat.add_comm]
      rfl

/-- A text is cut at the end of each of its beginnings. -/
theorem splitAtByteFrom_append (taken before rest : List Char) :
    splitAtByteFrom taken (byteLength before) (before ++ rest) =
      some (taken.reverse ++ before, rest) := by
  induction before generalizing taken with
  | nil => cases rest <;> simp [splitAtByteFrom]
  | cons c before ih =>
      obtain ⟨n, hn⟩ : ∃ n, byteLength (c :: before) = n + 1 :=
        ⟨_, (Nat.succ_pred (byteLength_eq_zero.not.2 (by simp))).symm⟩
      have hsize : byteLength (c :: before) - c.utf8Size = byteLength before := by simp
      rw [hn, List.cons_append, splitAtByteFrom, if_pos, ← hn, hsize, ih]
      · simp
      · rw [← hn]
        simp

/-- What stands between two boundaries. -/
theorem sliceBytes_append (before slice rest : List Char) :
    sliceBytes (byteLength before) (byteLength before + byteLength slice) (before ++ slice ++ rest) =
      some slice := by
  have hbefore := splitAtByteFrom_append [] before (slice ++ rest)
  have hslice := splitAtByteFrom_append [] slice rest
  simp [sliceBytes, hbefore, hslice]

end Text

/-! ### Scans -/

/-- A text and two byte offsets in it: the place, and the start of the current token. -/
structure Scanner where
  source : List Char
  pos : Nat
  start : Nat

/-- A reader over byte offsets. It gives a result or a fault and the scanner behind it, or it is
undefined. -/
abbrev Scan (α : Type) := ExceptT Fault (StateT Scanner Option) α

namespace Scan

variable {α β : Type}

/-- The outcome from `s` on. -/
def run (scan : Scan α) (s : Scanner) : Option (Except Fault α × Scanner) :=
  StateT.run (ExceptT.run scan) s

/-- Undefined where there is no value. -/
def ofOption (a? : Option α) : Scan α :=
  ExceptT.lift (StateT.lift a?)

@[simp] theorem run_pure (a : α) (s : Scanner) : (pure a : Scan α).run s = some (.ok a, s) := rfl

@[simp] theorem run_ofOption (a : α) (s : Scanner) :
    (ofOption (some a)).run s = some (.ok a, s) := rfl

/-- A scan goes on behind what was scanned before. -/
theorem run_bind {scan : Scan α} {next : α → Scan β} {s s' : Scanner} {a : α}
    (h : scan.run s = some (.ok a, s')) : (scan >>= next).run s = (next a).run s' := by
  simp only [run, ExceptT.run_bind, StateT.run_bind] at h ⊢
  rw [h]
  rfl

/-- A fault is passed on. -/
theorem run_bind_error {scan : Scan α} {next : α → Scan β} {s s' : Scanner} {fault : Fault}
    (h : scan.run s = some (.error fault, s')) :
    (scan >>= next).run s = some (.error fault, s') := by
  simp only [run, ExceptT.run_bind, StateT.run_bind] at h ⊢
  rw [h]
  rfl

/-! ### Loops -/

section Loops

open Classical

variable {σ : Type}

/-- What a step leads to: the outcome of the loop, or where the next step starts. -/
def afterStep : Except Fault (σ ⊕ α) × Scanner → (Except Fault α × Scanner) ⊕ (σ × Scanner)
  | (.ok (.inl x), s) => .inr (x, s)
  | (.ok (.inr a), s) => .inl (.ok a, s)
  | (.error fault, s) => .inl (.error fault, s)

/-- One step of a loop. -/
def takeStep (step : σ → Scan (σ ⊕ α)) : σ × Scanner →. (Except Fault α × Scanner) ⊕ (σ × Scanner) :=
  fun (x, s) => ((step x).run s).map afterStep

/-- Takes steps, each from the value of the one before, up to the first that has a result. It is
undefined if a step is, and if there is no such step. -/
noncomputable def loop (step : σ → Scan (σ ⊕ α)) (x : σ) : Scan α :=
  ExceptT.mk fun s => ((takeStep step).fix (x, s)).toOption

variable {step : σ → Scan (σ ⊕ α)} {x y : σ} {s s' : Scanner}

theorem mem_takeStep {outcome : Except Fault (σ ⊕ α) × Scanner} (h : (step x).run s = some outcome) :
    afterStep outcome ∈ takeStep step (x, s) := by
  simp [takeStep, h]

theorem run_loop (step : σ → Scan (σ ⊕ α)) (x : σ) (s : Scanner) :
    (loop step x).run s = ((takeStep step).fix (x, s)).toOption := rfl

/-- Behind a value, the loop goes on from there. -/
theorem run_loop_next (h : (step x).run s = some (.ok (.inl y), s')) :
    (loop step x).run s = (loop step y).run s' := by
  rw [run_loop, run_loop, PFun.fix_fwd_eq (mem_takeStep h)]

/-- A result ends the loop. -/
theorem run_loop_done {a : α} (h : (step x).run s = some (.ok (.inr a), s')) :
    (loop step x).run s = some (.ok a, s') := by
  rw [run_loop, Part.toOption_eq_some_iff]
  exact PFun.fix_stop (mem_takeStep h)

/-- So does a fault. -/
theorem run_loop_error {fault : Fault} (h : (step x).run s = some (.error fault, s')) :
    (loop step x).run s = some (.error fault, s') := by
  rw [run_loop, Part.toOption_eq_some_iff]
  exact PFun.fix_stop (mem_takeStep h)

end Loops

/-! ### Operations -/

/-- The byte offset of the place. -/
def pos : Scan Nat :=
  return (← get).pos

/-- The difference, which has to be one. -/
def sub (m n : Nat) : Scan Nat :=
  ofOption (if n ≤ m then some (m - n) else none)

/-- The text between two byte offsets. -/
def slice (start stop : Nat) : Scan (List Char) := do
  ofOption (sliceBytes start stop (← get).source)

/-- Goes on by a number of bytes. -/
def skipBytes (n : Nat) : Scan Unit :=
  modify fun s => { s with pos := s.pos + n }

/-- Is nothing left to read? -/
def atEnd : Scan Bool := do
  let s ← get
  return byteLength s.source ≤ s.pos

/-- The text from the place on. -/
def remainder : Scan (List Char) := do
  let s ← get
  slice s.pos (byteLength s.source)

/-- The next character, if there is one. -/
def peek : Scan (Option Char) :=
  return (← remainder).head?

/-- Reads the next character; at the end, none. -/
def advance : Scan (Option Char) := do
  match ← peek with
  | none => return none
  | some x =>
    skipBytes x.utf8Size
    return some x

/-- Reads the next character, if it is in the class. -/
def eat (p : Char → Bool) : Scan Bool := do
  match ← peek with
  | none => return false
  | some x =>
    if p x then
      skipBytes x.utf8Size
      return true
    else return false

/-- Reads a maximal run of characters of the class. -/
noncomputable def eatWhile (p : Char → Bool) : Scan Unit :=
  loop (fun _ : Unit => do
    if ← eat p then return .inl () else return .inr ()) ()

/-- Starts a token here and reads a maximal run of characters of the class as its text. -/
noncomputable def consumeWhile (p : Char → Bool) : Scan (List Char) := do
  modify fun s => { s with start := s.pos }
  eatWhile p
  let s ← get
  slice s.start s.pos

/-- Refuses to go on, with a fault that shows at a byte offset. -/
def failAt {α : Type} (cause : Cause) (offset : Nat) : Scan α := do
  let s ← get
  throw { cause, offset, input := String.ofList s.source }

/-- Refuses to go on here. -/
def fail {α : Type} (cause : Cause) : Scan α := do
  failAt cause (← pos)

end Scan

/-! ### Scanners at the places of cursors -/

theorem Cursor.pos_past (c : Cursor) (taken rest : List Char) :
    (c.past taken rest).pos = c.pos + byteLength taken := by
  simp [Cursor.pos, Nat.add_comm]

theorem Cursor.past_past (c : Cursor) (taken taken' rest rest' : List Char) :
    (c.past taken rest).past taken' rest' = c.past (taken ++ taken') rest' := by
  simp [Cursor.past]

theorem Cursor.advance_past (c : Cursor) (passed : List Char) (x : Char) (rest : List Char) :
    (c.past passed.reverse (x :: rest)).advance = c.past (x :: passed).reverse rest := by
  simp [Cursor.advance, Cursor.past_past]

/-- At the end, it does not matter which of the two a fault shows at. -/
theorem Cursor.fail_eq_failAtEnd {α : Type} (cause : Cause) {c : Cursor} (h : c.rest = []) :
    (c.fail cause : Except Failure (α × Cursor)) = c.failAtEnd cause := by
  have hpos : c.pos = byteLength c.source := by simp [Cursor.source, Cursor.pos, h]
  rw [Cursor.fail, hpos]
  rfl

namespace Scanner

/-- The scanner at the place of a cursor. -/
def ofCursor (c : Cursor) : Scanner :=
  { source := c.source, pos := c.pos, start := byteLength c.mark }

/-- The outcome of a reader, as a scan has it. -/
def ofResult {α : Type} : Except Failure (α × Cursor) → Except Fault α × Scanner
  | .ok (a, c) => (.ok a, ofCursor c)
  | .error failure => (.error failure.fault, ofCursor failure.cursor)

/-- The place is between two characters, or at one of the ends. -/
def OnBoundary (s : Scanner) : Prop :=
  IsBoundary s.source s.pos

theorem onBoundary_ofCursor (c : Cursor) : (ofCursor c).OnBoundary :=
  ⟨c.before.reverse, c.rest, rfl, by simp [ofCursor, Cursor.pos]⟩

/-- Every scanner on a boundary is at the place of a cursor. -/
theorem OnBoundary.exists_cursor {s : Scanner} (h : s.OnBoundary) : ∃ c, ofCursor c = s := by
  obtain ⟨source, pos, start⟩ := s
  obtain ⟨before, rest, hsource, hpos⟩ := h
  -- No scan looks at the start of the token that it finds, so any cursor of that offset will do.
  have hmark : byteLength (List.replicate start ' ') = start := byteLength_replicate_space start
  refine ⟨{ before := before.reverse, rest, mark := List.replicate start ' ' }, ?_⟩
  simp_all [ofCursor, Cursor.source, Cursor.pos]

end Scanner

namespace Scan

open Scanner

/-- What is read behind each other is scanned behind each other. -/
theorem run_bind_ofResult {α β : Type} {scan : Scan α} {next : α → Scan β} {s : Scanner}
    {result : Except Failure (α × Cursor)} {more : α × Cursor → Except Failure (β × Cursor)}
    (h : scan.run s = some (ofResult result))
    (hnext : ∀ a c, result = .ok (a, c) → (next a).run (ofCursor c) = some (ofResult (more (a, c)))) :
    (scan >>= next).run s = some (ofResult (result >>= more)) := by
  cases result with
  | error failure => exact run_bind_error h
  | ok found => exact (run_bind h).trans (hnext found.1 found.2 rfl)

theorem run_pos (c : Cursor) : pos.run (ofCursor c) = some (.ok c.pos, ofCursor c) := rfl

theorem run_fail {α : Type} (cause : Cause) (c : Cursor) :
    (fail cause : Scan α).run (ofCursor c) = some (ofResult (c.fail cause)) := rfl

theorem run_sub (m n : Nat) (s : Scanner) : (sub (m + n) n).run s = some (.ok m, s) := by
  simp [sub]

/-- What comes next at a cursor can be taken at every cursor of the same text. -/
theorem run_slice {c c' : Cursor} {text rest : List Char} (hrest : c.rest = text ++ rest)
    (hsource : c'.source = c.source) {stop : Nat} (hstop : stop = c.pos + byteLength text) :
    (slice c.pos stop).run (ofCursor c') = some (.ok text, ofCursor c') := by
  have hslice := sliceBytes_append c.before.reverse text rest
  rw [byteLength_reverse, List.append_assoc, ← hrest] at hslice
  show (ofOption (sliceBytes c.pos stop c'.source)).run (ofCursor c') = _
  rw [hsource, hstop]
  exact congrArg (fun a? => (ofOption a?).run (ofCursor c')) hslice

theorem run_atEnd (c : Cursor) : atEnd.run (ofCursor c) = some (.ok c.atEnd, ofCursor c) := by
  have hend : decide (byteLength c.source ≤ c.pos) = c.atEnd := by
    have hzero : byteLength c.source ≤ c.pos ↔ byteLength c.rest = 0 := by
      simp only [Cursor.source, byteLength_append, byteLength_reverse, Cursor.pos]
      omega
    rw [Cursor.atEnd, Bool.eq_iff_iff, decide_eq_true_iff, hzero, byteLength_eq_zero,
      List.isEmpty_iff]
  show some (Except.ok (decide (byteLength c.source ≤ c.pos)), ofCursor c) = _
  rw [hend]

theorem run_remainder (c : Cursor) :
    remainder.run (ofCursor c) = some (.ok c.rest, ofCursor c) := by
  show (slice c.pos (byteLength c.source)).run (ofCursor c) = _
  exact run_slice (List.append_nil _).symm rfl (by simp [Cursor.source, Cursor.pos])

theorem run_peek (c : Cursor) : peek.run (ofCursor c) = some (.ok c.peek, ofCursor c) := by
  rw [peek, run_bind (run_remainder c)]
  rfl

/-- To skip as many bytes as the next characters have is to read them. -/
theorem run_skipBytes {c : Cursor} (taken rest : List Char) (h : c.rest = taken ++ rest) {n : Nat}
    (hn : n = byteLength taken) :
    (skipBytes n).run (ofCursor c) = some (.ok (), ofCursor (c.past taken rest)) := by
  show some (Except.ok (), { ofCursor c with pos := c.pos + n }) = _
  rw [ofCursor, ofCursor, Cursor.source_past h, Cursor.pos_past, hn]
  rfl

theorem run_advance (c : Cursor) :
    advance.run (ofCursor c) = some (.ok c.peek, ofCursor c.advance) := by
  rw [advance, run_bind (run_peek c)]
  unfold Cursor.peek Cursor.advance
  cases hrest : c.rest with
  | nil => rfl
  | cons x rest =>
      show (skipBytes x.utf8Size >>= _).run _ = _
      rw [run_bind (run_skipBytes [x] rest hrest (by simp))]
      rfl

theorem run_eat (p : Char → Bool) (c : Cursor) :
    (eat p).run (ofCursor c) = some (.ok (c.eat? p).isSome, ofCursor ((c.eat? p).getD c)) := by
  rw [eat, run_bind (run_peek c)]
  unfold Cursor.peek Cursor.eat?
  cases hrest : c.rest with
  | nil => rfl
  | cons x rest =>
      by_cases hx : p x
      · simp only [List.head?_cons, hx, if_true]
        rw [run_bind (run_skipBytes [x] rest hrest (by simp))]
        rfl
      · simp [hx]

theorem run_eatWhile (p : Char → Bool) (c : Cursor) :
    (eatWhile p).run (ofCursor c) = some (.ok (), ofCursor (c.skip p)) := by
  obtain ⟨before, rest, mark⟩ := c
  induction rest generalizing before with
  | nil => exact run_loop_done (run_bind (run_eat p _))
  | cons x rest ih =>
      have heat := run_eat p ⟨before, x :: rest, mark⟩
      by_cases hx : p x
      · simp only [Cursor.eat?, hx, if_true, Option.isSome_some, Option.getD_some] at heat
        refine (run_loop_next (run_bind heat)).trans ((ih (x :: before)).trans ?_)
        simp [Cursor.skip, Cursor.run, Cursor.past, hx]
      · simp only [Cursor.eat?, hx] at heat
        refine (run_loop_done (run_bind heat)).trans ?_
        simp [Cursor.skip, Cursor.run, Cursor.past, hx]

theorem run_consumeWhile (p : Char → Bool) (c : Cursor) :
    (consumeWhile p).run (ofCursor c) =
      some (.ok (c.takeRun p).1, ofCursor (c.takeRun p).2) := by
  have hmark : (modify fun s => { s with start := s.pos } : Scan Unit).run (ofCursor c) =
    some (.ok (), ofCursor { c with mark := c.before }) := rfl
  rw [consumeWhile, run_bind hmark, run_bind (run_eatWhile p _)]
  show (slice c.pos (c.takeRun p).2.pos).run (ofCursor (c.takeRun p).2) = _
  refine run_slice List.takeWhile_append_dropWhile.symm (Cursor.source_takeRun p c) ?_
  exact Cursor.pos_past { c with mark := c.before } _ _

end Scan

end Shorthand
