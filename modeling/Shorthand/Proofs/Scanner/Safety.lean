import Shorthand.Proofs.Scanner.Elements

/-!
# No reader loses its place

At every boundary of every text, each scan is defined: it ends, takes only slices that exist, and
counts no depth below zero. It stays in the text and ends at a boundary not in front of the one
where it started, also when it gives up. What finds nothing stays where it is, and an element is at
least one character.

All of this follows from the outcome, which is a reader's, since readers only go ahead.
-/

namespace Shorthand

open Text Scanner

theorem Node.ahead_of_read_error {c : Cursor} {failure : Failure} (h : read c = .error failure) :
    c.Ahead failure.cursor := by
  by_cases hrest : c.rest = []
  · obtain ⟨before, rest, mark⟩ := c
    obtain rfl : rest = [] := hrest
    cases h
    exact .refl _
  · exact (shows_of_read h hrest).ahead

namespace Scan

variable {α : Type}

/-- The scan is defined at `s` and, whatever the result, ends at a boundary of the same text, not in
front of `s` and not past the end. -/
def Safe (scan : Scan α) (s : Scanner) : Prop :=
  ∃ result s', scan.run s = some (result, s') ∧
    s'.source = s.source ∧ s'.OnBoundary ∧ s.pos ≤ s'.pos ∧ s'.pos ≤ byteLength s.source

/-- Where the scan finds nothing, it stays where it is. -/
def Spares (scan : Scan (Option α)) (s : Scanner) : Prop :=
  ∀ s', scan.run s = some (.ok none, s') → s'.pos = s.pos

variable {scan : Scan α} {c c' : Cursor}

theorem safe_of_ahead {result : Except Fault α}
    (hrun : scan.run (ofCursor c) = some (result, ofCursor c')) (h : c.Ahead c') :
    scan.Safe (ofCursor c) := by
  have hsource : (ofCursor c').source = (ofCursor c).source := h.source_eq
  refine ⟨result, ofCursor c', hrun, hsource, onBoundary_ofCursor c', h.pos_le, ?_⟩
  rw [← hsource]
  exact (onBoundary_ofCursor c').le

/-- A scan that has the outcome of a reader is safe if the reader goes ahead. -/
theorem safe_of_run {result : Except Failure (α × Cursor)}
    (hrun : scan.run (ofCursor c) = some (ofResult result))
    (hok : ∀ a c', result = .ok (a, c') → c.Ahead c')
    (herror : ∀ failure, result = .error failure → c.Ahead failure.cursor) :
    scan.Safe (ofCursor c) := by
  cases result with
  | error failure => exact safe_of_ahead hrun (herror failure rfl)
  | ok found => exact safe_of_ahead hrun (hok found.1 found.2 rfl)

/-- So is one that may find nothing. -/
theorem safe_of_run_option {scan : Scan (Option α)} {result : Except Failure (Option α × Cursor)}
    (hrun : scan.run (ofCursor c) = some (ofResult result))
    (hnone : ∀ c', result = .ok (none, c') → c' = c)
    (hsome : ∀ a c', result = .ok (some a, c') → c.Ahead c')
    (herror : ∀ failure, result = .error failure → c.Ahead failure.cursor) :
    scan.Safe (ofCursor c) ∧ scan.Spares (ofCursor c) := by
  refine ⟨safe_of_run hrun (fun a? c' hok => ?_) herror, fun s' hs' => ?_⟩
  · cases a? with
    | none =>
        rw [hnone c' hok]
        exact .refl c
    | some a => exact hsome a c' hok
  · rw [hrun] at hs'
    cases result with
    | error failure => simp [ofResult] at hs'
    | ok found =>
        obtain ⟨a?, c'⟩ := found
        obtain ⟨rfl, rfl⟩ : a? = none ∧ ofCursor c' = s' := by simpa [ofResult] using hs'
        rw [hnone c' rfl]

theorem safe_readQuoted (c : Cursor) :
    readQuoted.Safe (ofCursor c) ∧ readQuoted.Spares (ofCursor c) :=
  safe_of_run_option (run_readQuoted c) (fun _ => Literal.eq_of_read_none)
    (fun _ _ h => (Literal.passes_read h).ahead) fun _ h => (Literal.shows_of_read h).ahead

theorem safe_readText (c : Cursor) : readText.Safe (ofCursor c) ∧ readText.Spares (ofCursor c) :=
  safe_of_run_option (run_readText c) (fun _ => Payload.eq_of_read_none)
    (fun _ _ h => (Payload.passes_read h).ahead) fun _ h => (Payload.shows_of_read h).ahead

theorem safe_readAttributes (c : Cursor) :
    readAttributes.Safe (ofCursor c) ∧ readAttributes.Spares (ofCursor c) :=
  safe_of_run_option (run_readAttributes c) (fun _ => Attribute.eq_of_readList_none)
    (fun _ _ h => (Attribute.passes_readList h).ahead) fun _ h => (Attribute.shows_of_readList h).ahead

theorem safe_readRepeat (c : Cursor) :
    readRepeat.Safe (ofCursor c) ∧ readRepeat.Spares (ofCursor c) := by
  have hrun : readRepeat.run (ofCursor c) = some (ofResult (.ok (Repeat.read c))) := run_readRepeat c
  have hahead := (Repeat.passes_read c).ahead
  refine safe_of_run_option hrun (fun c' h => Repeat.eq_of_read_none (Except.ok.inj h))
    (fun a c' h => ?_) fun _ h => by simp at h
  rwa [Except.ok.inj h] at hahead

theorem safe_readElement (c : Cursor) : readElement.Safe (ofCursor c) :=
  safe_of_run (run_readElement c) (fun _ _ h => (Node.passes_read h).ahead)
    fun _ => Node.ahead_of_read_error

/-- An element that was read is at least one character. -/
theorem pos_lt_of_readElement {node : Node} {s' : Scanner}
    (h : readElement.run (ofCursor c) = some (.ok node, s')) : c.pos < s'.pos := by
  rw [run_readElement] at h
  cases hread : Node.read c with
  | error failure => simp [hread, ofResult] at h
  | ok found =>
      obtain ⟨n, c'⟩ := found
      obtain ⟨-, rfl⟩ : n = node ∧ ofCursor c' = s' := by simpa [hread, ofResult] using h
      exact (Node.passes_read hread).pos_lt (Node.length_rest_of_read hread)

/-- **No reader loses its place.** At every boundary of every text, and whatever the start of the
current token, the readers of literals, payloads, attribute lists, repeats and elements are safe.
Those that may find nothing stay where they are then, and an element is at least one character. Each
of them has the outcome of the reader over characters, and so has the whole of parsing, which is
safe from the start. -/
theorem safe_of_isBoundary (source : String) (pos start : Nat) (h : IsBoundary source.toList pos) :
    let s : Scanner := { source := source.toList, pos, start }
    (readQuoted.Safe s ∧ readText.Safe s ∧ readAttributes.Safe s ∧ readRepeat.Safe s ∧
      readElement.Safe s) ∧
    (readQuoted.Spares s ∧ readText.Spares s ∧ readAttributes.Spares s ∧ readRepeat.Spares s) ∧
    (∀ node s', readElement.run s = some (.ok node, s') → pos < s'.pos) ∧
    (∀ c, ofCursor c = s →
      readQuoted.run s = some (ofResult (Literal.read c)) ∧
      readText.run s = some (ofResult (Payload.read c)) ∧
      readAttributes.run s = some (ofResult (Attribute.readList c)) ∧
      readRepeat.run s = some (ofResult (.ok (Repeat.read c))) ∧
      readElement.run s = some (ofResult (Node.read c))) ∧
    ∃ s', parse source = some (Tree.parse source, s') ∧ s'.source = trim source.toList ∧
      s'.OnBoundary := by
  intro s
  -- A boundary is where a cursor is, so what holds at all cursors holds here.
  obtain ⟨c, hc⟩ := OnBoundary.exists_cursor (s := s) h
  have hquoted := safe_readQuoted c
  have htext := safe_readText c
  have hlist := safe_readAttributes c
  have hrepeat := safe_readRepeat c
  have helement := safe_readElement c
  rw [hc] at hquoted htext hlist hrepeat helement
  refine ⟨⟨hquoted.1, htext.1, hlist.1, hrepeat.1, helement⟩,
    ⟨hquoted.2, htext.2, hlist.2, hrepeat.2⟩, fun node s' hrun => ?_, fun c' hc' => ?_, ?_⟩
  · have hpos : c.pos = pos := congrArg Scanner.pos hc
    rw [← hc] at hrun
    rw [← hpos]
    exact pos_lt_of_readElement hrun
  · rw [← hc']
    exact ⟨run_readQuoted c', run_readText c', run_readAttributes c', run_readRepeat c',
      run_readElement c'⟩
  · obtain ⟨c', hahead, hrun⟩ := run_parseFrom Builder.start (Cursor.ofList (trim source.toList))
    exact ⟨ofCursor c', hrun, hahead.source_eq, onBoundary_ofCursor c'⟩

/-- An element behind an accented letter, with letters of two bytes in all of its parts: an escaped
quote in a literal, braces in an unquoted value and in a payload, and a quoted brace. -/
theorem safe_of_isBoundary_accents :
    let source := "é[u='ö\\'é' v=ü$\x7b1:ß\x7d]\x7bñ\x7b'\x7d'\x7d\x7d*3+é"
    IsBoundary source.toList 2 ∧ ∃ node s',
      readElement.run { source := source.toList, pos := 2, start := 0 } = some (.ok node, s') ∧
        node.text = some "ñ\x7b'\x7d'\x7d" ∧ s'.pos = 37 ∧ s'.OnBoundary := by
  intro source
  have hsplit : source.toList = ['é'] ++ source.toList.drop 1 := by decide +kernel
  have hboundary : IsBoundary source.toList 2 := ⟨['é'], source.toList.drop 1, hsplit, rfl⟩
  obtain ⟨⟨-, -, -, -, helement⟩, -, -, hreaders, -⟩ := safe_of_isBoundary source 2 0 hboundary
  let c : Cursor := ⟨['é'], source.toList.drop 1, []⟩
  have hread : (Node.read c).toOption.map (fun found => (found.1.text, found.2.pos)) =
      some (some "ñ\x7b'\x7d'\x7d", 37) := by decide +kernel
  obtain ⟨-, -, -, -, hrun⟩ := hreaders c (congrArg (Scanner.mk · 2 0) hsplit.symm)
  obtain ⟨result, s', hs', -, hon, -⟩ := helement
  cases hnode : Node.read c with
  | error failure => simp [hnode, Except.toOption] at hread
  | ok found =>
      rw [hnode] at hrun hread
      obtain ⟨htext, hpos⟩ : found.1.text = some "ñ\x7b'\x7d'\x7d" ∧ found.2.pos = 37 := by
        simpa [Except.toOption] using hread
      obtain ⟨-, rfl⟩ := Prod.mk.inj (Option.some.inj (hs'.symm.trans hrun))
      exact ⟨hboundary, found.1, ofCursor found.2, hrun, htext, hpos, hon⟩

end Scan

end Shorthand
