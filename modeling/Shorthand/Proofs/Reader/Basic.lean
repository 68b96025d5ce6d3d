import Shorthand.Proofs.Node.WellFormed

/-!
# What a reader takes

Texts read back in a context: behind them stands a `rest` that is not part of them. `Cursor.Reads`
says what a reader gives in front of such a text and where it stops. Runs of characters are read to
their end, so what follows one has to *stop* it (`Text.Stops`).
-/

namespace Shorthand

/-- The text does not start with a character of the class. -/
def Text.Stops (p : Char → Bool) (cs : List Char) : Prop :=
  ∀ x, cs.head? = some x → p x = false

namespace Text.Stops

variable {p q : Char → Bool} {text rest : List Char}

theorem nil : Stops p [] := by
  simp [Stops]

theorem cons {x : Char} (h : p x = false) (cs : List Char) : Stops p (x :: cs) := by
  simpa [Stops] using h

theorem append (htext : Stops p text) (hrest : Stops p rest) : Stops p (text ++ rest) := by
  cases text with
  | nil => exact hrest
  | cons x text => exact cons (htext x rfl) _

/-- What stops a class stops every smaller one. -/
theorem of_imp (h : Stops p text) (hpq : ∀ x, q x = true → p x = true) : Stops q text := by
  intro x hx
  refine Bool.eq_false_iff.2 fun hq => ?_
  exact absurd (hpq x hq) (by simp [h x hx])

end Text.Stops

namespace Cursor

/-- In front of `text ++ rest`, wherever that is, the reader gives `a` and stops in front of `rest`.
-/
def Reads {α : Type} (reader : Cursor → Except Failure (α × Cursor)) (text : List Char) (a : α)
    (rest : List Char) : Prop :=
  ∀ c : Cursor, c.rest = text ++ rest → ∃ c', reader c = .ok (a, c') ∧ c'.rest = rest

theorem rest_advance {c : Cursor} {x : Char} {rest : List Char} (h : c.rest = x :: rest) :
    c.advance.rest = rest := by
  simp [advance, h]

theorem eat?_eq_some {p : Char → Bool} {c : Cursor} {x : Char} {rest : List Char}
    (h : c.rest = x :: rest) (hx : p x = true) : c.eat? p = some (c.past [x] rest) := by
  simp [eat?, h, hx]

theorem eat?_eq_none {p : Char → Bool} {c : Cursor} (h : Text.Stops p c.rest) : c.eat? p = none := by
  cases hrest : c.rest with
  | nil => simp [eat?, hrest]
  | cons x rest =>
      have hx := h x (by simp [hrest])
      simp [eat?, hrest, hx]

/-- A run ends where it is stopped. -/
theorem run_eq {p : Char → Bool} {token tail : List Char} (hall : ∀ x ∈ token, p x = true)
    (hstop : Text.Stops p tail) {c : Cursor} (hc : c.rest = token ++ tail) :
    (c.run p).1 = token ∧ (c.run p).2.rest = tail := by
  have htail : tail.takeWhile p = [] ∧ tail.dropWhile p = tail := by
    cases tail with
    | nil => simp
    | cons x tail =>
        have hx := hstop x rfl
        simp [hx]
  refine ⟨?_, ?_⟩
  · rw [run, hc, List.takeWhile_append_of_pos hall, htail.1, List.append_nil]
  · rw [run, rest_past, hc, List.dropWhile_append_of_pos hall, htail.2]

theorem takeRun_eq {p : Char → Bool} {token tail : List Char} (hall : ∀ x ∈ token, p x = true)
    (hstop : Text.Stops p tail) {c : Cursor} (hc : c.rest = token ++ tail) :
    (c.takeRun p).1 = token ∧ (c.takeRun p).2.rest = tail :=
  run_eq (c := { c with mark := c.before }) hall hstop hc

end Cursor

/-! ### Repeats -/

namespace Repeat

theorem countOf_digits {n : Nat} (h : n ≤ Numeral.maxCount) : countOf (Numeral.digits n) = some n := by
  rw [countOf, if_neg (by simpa using Numeral.digits_ne_nil n), Numeral.value_digits, Nat.min_eq_left h]

theorem write_eq_cons (stamps : Bool) (r : Repeat) : ∃ cs, (r.write stamps).toList = '*' :: cs := by
  unfold write
  rw [String.append_assoc, String.toList_append]
  exact ⟨_, rfl⟩

/-- A pending repeat is written as a `*` and the digits of its count. -/
theorem WellFormed.toList_write {r : Repeat} (h : r.WellFormed) (stamps : Bool) :
    ∃ digits : List Char, (r.write stamps).toList = '*' :: digits ∧
      (∀ x ∈ digits, Numeral.isDigit x = true) ∧ { count := countOf digits } = r := by
  obtain ⟨count, copy⟩ := r
  obtain rfl : copy = none := h.pending
  cases count with
  | none => exact ⟨[], by simp [write], by simp, rfl⟩
  | some n =>
      refine ⟨Numeral.digits n, by simp [write, Numeral.render], ?_, ?_⟩
      · exact fun x hx => Numeral.isDigit_of_mem_digits hx
      · rw [countOf_digits (h.count_le n rfl)]

/-- The digits behind a `*` are read to the last one, in the same text. -/
theorem read_digits {digits rest : List Char} (hdigits : ∀ x ∈ digits, Numeral.isDigit x = true)
    (hrest : Text.Stops Numeral.isDigit rest) {c : Cursor} (hc : c.rest = '*' :: (digits ++ rest)) :
    ∃ c', read c = (some { count := countOf digits }, c') ∧ c'.rest = rest ∧
      c'.source = c.source := by
  have hrun := Cursor.takeRun_eq hdigits hrest (Cursor.rest_past c ['*'] (digits ++ rest))
  refine ⟨((c.past ['*'] (digits ++ rest)).takeRun Numeral.isDigit).2, ?_, hrun.2, ?_⟩
  · rw [read, Cursor.eat?_eq_some hc (by decide)]
    simp only [hrun.1]
  · rw [Cursor.source_takeRun]
    exact Cursor.source_past hc

/-- **A pending repeat reads back.** -/
theorem read_write {r : Repeat} (h : r.WellFormed) (stamps : Bool) {rest : List Char}
    (hrest : Text.Stops Numeral.isDigit rest) {c : Cursor}
    (hc : c.rest = (r.write stamps).toList ++ rest) :
    (read c).1 = some r ∧ (read c).2.rest = rest := by
  obtain ⟨digits, hwrite, hdigits, hr⟩ := h.toList_write stamps
  rw [hwrite, List.cons_append] at hc
  obtain ⟨c', hread, hrest', -⟩ := read_digits hdigits hrest hc
  rw [hread, hr]
  exact ⟨rfl, hrest'⟩

theorem read_none {c : Cursor} (h : c.rest.head? ≠ some '*') : read c = (none, c) := by
  have hstop : Text.Stops (· == '*') c.rest := by
    intro x hx
    rw [hx] at h
    simpa using h
  rw [read, Cursor.eat?_eq_none hstop]

end Repeat

end Shorthand
