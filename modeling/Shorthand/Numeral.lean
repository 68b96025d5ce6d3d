/-!
# Decimal numerals

Counts are written in base ten with the digits `0` to `9`. Reading keeps every digit, so a caller
decides what an excess over `maxCount` means: a repeat count saturates, a budget is discarded.
-/

namespace Shorthand.Numeral

/-- The largest count that the notation can hold: all 64 bits set. -/
def maxCount : Nat := 0xffffffffffffffff

/-- Is the character one of `0` to `9`? -/
def isDigit (c : Char) : Bool :=
  '0' ≤ c && c ≤ '9'

/-- The value of a digit. -/
def digitValue (c : Char) : Nat :=
  c.toNat - '0'.toNat

/-- The digit of a value below ten. -/
def digit (n : Nat) : Char :=
  Char.ofNat ('0'.toNat + n)

/-- The value in base ten of a run of digits, leading zeros included. -/
def value (digits : List Char) : Nat :=
  digits.foldl (fun n c => 10 * n + digitValue c) 0

/-- The digits of a number in base ten, without leading zeros. -/
def digits (n : Nat) : List Char :=
  if n < 10 then [digit n] else digits (n / 10) ++ [digit (n % 10)]

/-- A number in base ten. -/
def render (n : Nat) : String :=
  String.ofList (digits n)

/-- The number that a text of digits stands for, one leading `+` allowed; nothing when a character
is no digit, when no digit is there, or when the number is above `maxCount`. -/
def parse? (cs : List Char) : Option Nat :=
  let ds := if cs.head? = some '+' then cs.drop 1 else cs
  if !ds.isEmpty && ds.all isDigit && value ds ≤ maxCount then some (value ds) else none

/-! ### Digits and values -/

theorem digitValue_digit {n : Nat} (h : n < 10) : digitValue (digit n) = n := by
  have table : ∀ m : Fin 10, digitValue (digit m) = m := by decide
  exact table ⟨n, h⟩

theorem isDigit_digit {n : Nat} (h : n < 10) : isDigit (digit n) = true := by
  have table : ∀ m : Fin 10, isDigit (digit m) = true := by decide
  exact table ⟨n, h⟩

/-- A number is written with digits only. -/
theorem isDigit_of_mem_digits {n : Nat} {c : Char} (h : c ∈ digits n) : isDigit c = true := by
  fun_induction digits n with
  | case1 n hlt =>
    simp only [List.mem_singleton] at h
    rw [h]
    exact isDigit_digit hlt
  | case2 n hge ih =>
    simp only [List.mem_append, List.mem_singleton] at h
    rcases h with h | rfl
    · exact ih h
    · exact isDigit_digit (Nat.mod_lt _ (by decide))

theorem digits_ne_nil (n : Nat) : digits n ≠ [] := by
  unfold digits
  split <;> simp

/-- Reading the digits of a number gives the number. -/
theorem value_digits (n : Nat) : value (digits n) = n := by
  fun_induction digits n with
  | case1 n hlt => simp [value, digitValue_digit hlt]
  | case2 n hge ih =>
    have hlast : digitValue (digit (n % 10)) = n % 10 :=
      digitValue_digit (Nat.mod_lt _ (by decide))
    simp only [value, List.foldl_append, List.foldl_cons, List.foldl_nil] at ih ⊢
    rw [ih, hlast]
    omega

end Shorthand.Numeral
