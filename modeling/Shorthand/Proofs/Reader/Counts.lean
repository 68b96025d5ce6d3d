import Mathlib.Data.List.Induction
import Mathlib.Data.Nat.Digits.Defs
import Shorthand.Proofs.Reader.Basic

/-!
# Counts of any length

A repeat may be written with any number of digits, while a count is held in 64 bits. So a count that
is too large is read as the largest there is, however far above it is and however many zeros stand
in front of it. Every count that can be held is written with digits that read back as that count.
-/

namespace Shorthand

open Text

/-! ### Numerals in base ten -/

namespace Numeral

theorem value_concat (digits : List Char) (d : Char) :
    value (digits ++ [d]) = 10 * value digits + digitValue d := by
  simp [value]

/-- Digits are read from the highest to the lowest. -/
theorem value_eq_ofDigits (digits : List Char) :
    value digits = Nat.ofDigits 10 (digits.reverse.map digitValue) := by
  induction digits using List.reverseRecOn with
  | nil => rfl
  | append_singleton digits d ih =>
      rw [value_concat, List.reverse_concat, List.map_cons, Nat.ofDigits_cons, ih]
      exact Nat.add_comm _ _

end Numeral

/-! ### Repeats -/

namespace Repeat

theorem countOf_eq_min {digits : List Char} (hne : digits ≠ []) :
    countOf digits =
      some (min (Nat.ofDigits 10 (digits.reverse.map Numeral.digitValue)) (2 ^ 64 - 1)) := by
  rw [countOf, if_neg (by simpa using hne), Numeral.value_eq_ofDigits]
  rfl

/-- **Repeats are read with saturation, and survive printing.** Behind a `*`, digits of any number
are read as the least of their value in base ten and the largest count of 64 bits, whatever follows
that is no digit; and a pending repeat with a count of 64 bits, or without one, is read back from
what is written for it. Either way reading stops right in front of what follows. -/
theorem read_saturates {rest : List Char} (hrest : Stops Numeral.isDigit rest) :
    (∀ (digits : List Char) (c : Cursor), digits ≠ [] → (∀ x ∈ digits, Numeral.isDigit x = true) →
        c.rest = '*' :: (digits ++ rest) →
        let value := Nat.ofDigits 10 (digits.reverse.map Numeral.digitValue)
        ∃ c', read c = (some { count := some (min value (2 ^ 64 - 1)) }, c') ∧
          c'.rest = rest ∧ c'.source = c.source) ∧
      ∀ (r : Repeat) (stamps : Bool) (c : Cursor), r.isPending = true →
        (∀ n, r.count = some n → n < 2 ^ 64) → c.rest = (r.write stamps).toList ++ rest →
        ∃ c', read c = (some r, c') ∧ c'.rest = rest ∧ c'.source = c.source := by
  constructor
  · intro digits c hne hdigits hc value
    rw [← countOf_eq_min hne]
    exact read_digits hdigits hrest hc
  · intro r stamps c hpending hcount hc
    have hformed : r.WellFormed :=
      ⟨Option.isNone_iff_eq_none.1 hpending, fun n hn => Nat.le_of_lt_succ (hcount n hn)⟩
    obtain ⟨digits, hwrite, hdigits, hr⟩ := hformed.toList_write stamps
    rw [hwrite, List.cons_append] at hc
    have hread := read_digits hdigits hrest hc
    rwa [hr] at hread

/-- One more than the largest count, behind zeros, is read as the largest count, which is written
without them and reads back. -/
theorem read_saturates_largest :
    Stops Numeral.isDigit ['>', 'b'] ∧
      (∃ c', read (.ofString "*00018446744073709551616>b") =
        (some { count := some 18446744073709551615 }, c') ∧ c'.rest = ['>', 'b']) ∧
      (Repeat.mk (some 18446744073709551615) none).write true = "*18446744073709551615" ∧
      ∃ c', read (.ofString "*18446744073709551615>b") =
        (some { count := some 18446744073709551615 }, c') ∧ c'.rest = ['>', 'b'] := by
  have hstop : Stops Numeral.isDigit ['>', 'b'] := .cons (by decide) _
  have hwrite : (Repeat.mk (some 18446744073709551615) none).write true = "*18446744073709551615" := by
    decide +kernel
  obtain ⟨hsaturates, hwritten⟩ := read_saturates hstop
  obtain ⟨c, hread, hrest, -⟩ := hsaturates "00018446744073709551616".toList
    (.ofString "*00018446744073709551616>b") (by decide) (List.all_eq_true.1 (by decide)) rfl
  obtain ⟨d, hreread, hrest', -⟩ := hwritten { count := some 18446744073709551615 } true
    (.ofString "*18446744073709551615>b") rfl (by decide) (by rw [hwrite]; rfl)
  exact ⟨hstop, ⟨c, hread, hrest⟩, hwrite, d, hreread, hrest'⟩

end Repeat

end Shorthand
