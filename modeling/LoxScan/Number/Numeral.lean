import LoxScan.Number.Decimal
import LoxScan.Number.Nearest
import Mathlib.Data.List.Induction

/-!
# The numbers that numerals denote

A digit before the point counts for ten times as much as the one after it, and this goes on after
the point, where each place is a tenth of the one before. `Numeral.value` reads a numeral in this
way, as an exact number, however many digits it has. Zeros in front of it or at its end add nothing,
so many numerals denote the same number; a `Decimal` keeps what they are written with, and denotes a
number as well.

* **`whole_add_fraction`**: digits before and after a point denote what the `Decimal` of them does.
* **`Decimal.nearest_toDouble`**: a `Decimal` is read as the nearest double.
-/

namespace LoxScan

open Decimal (digitValue valueOfDigits)

namespace Numeral

-- ── Reading a text ──────────────────

/-- What digits before the point denote. -/
def whole : List Char → ℚ
  | [] => 0
  | c :: rest => digitValue c * 10 ^ rest.length + whole rest

/-- What digits after the point denote. -/
def fraction : List Char → ℚ
  | [] => 0
  | c :: rest => (digitValue c + fraction rest) / 10

/-- What a numeral denotes. -/
def value (text : List Char) : ℚ :=
  whole (text.takeWhile (· ≠ '.')) + fraction ((text.dropWhile (· ≠ '.')).drop 1)

end Numeral

namespace Decimal

/-- What a numeral with a number of places denotes. -/
def value (n : Decimal) : ℚ :=
  n.coefficient / 10 ^ n.places

theorem valueOfDigits_append (a b : List Char) :
    valueOfDigits (a ++ b) = valueOfDigits a * 10 ^ b.length + valueOfDigits b := by
  induction b using List.reverseRecOn with
  | nil => simp
  | append_singleton b c ih =>
      rw [← List.append_assoc, valueOfDigits_append_singleton, valueOfDigits_append_singleton, ih,
        List.length_append, List.length_singleton, Nat.pow_succ]
      ring

theorem valueOfDigits_cons (c : Char) (rest : List Char) :
    valueOfDigits (c :: rest) = digitValue c * 10 ^ rest.length + valueOfDigits rest := by
  have first : valueOfDigits [c] = digitValue c := by simp [valueOfDigits]
  rw [← List.singleton_append, valueOfDigits_append, first]

end Decimal

namespace Numeral

theorem whole_eq (digits : List Char) : whole digits = valueOfDigits digits := by
  induction digits with
  | nil => rfl
  | cons c rest ih =>
      rw [whole, ih, Decimal.valueOfDigits_cons]
      push_cast
      rfl

theorem fraction_eq (digits : List Char) :
    fraction digits = valueOfDigits digits / 10 ^ digits.length := by
  induction digits with
  | nil => simp [fraction]
  | cons c rest ih =>
      rw [fraction, ih, Decimal.valueOfDigits_cons, List.length_cons, pow_succ]
      push_cast
      field_simp

/-- Digits before and after a point denote what the `Decimal` of them does. -/
theorem whole_add_fraction (digits places : List Char) :
    whole digits + fraction places = (Decimal.ofDigits digits places).value := by
  rw [whole_eq, fraction_eq, Decimal.value, Decimal.ofDigits, Decimal.valueOfDigits_append]
  push_cast
  field_simp

end Numeral

/-- A `Decimal` is read as the double nearest to what it denotes. -/
theorem Decimal.nearest_toDouble (n : Decimal) : Double.Nearest n.value n.toDouble := by
  have power : 0 < Nat.pow 10 n.places := Nat.pow_pos (by decide)
  have near := Double.nearest_ofRatio n.coefficient power
  rwa [Nat.pow_eq, Nat.cast_pow, Nat.cast_ofNat] at near

end LoxScan
