import LoxScan.Number.Double
import LoxScan.Number.Ladder
import Mathlib.Algebra.Order.Field.Rat
import Mathlib.Tactic.FieldSimp
import Mathlib.Tactic.Ring

/-!
# Doubles as rungs

The sizes of non-negative doubles are a ladder whose places are their bits, for a larger exponent or
fraction makes a larger number. The ladder has no end: past the bits of infinity it goes on as if
there were more exponents, so that infinity stands where the next power of two is.

Between two powers of two the ladder is a grid, and a quotient that has fifty-three digits in steps
of this grid is rounded by rounding the count of steps. That rounding may carry into the next power
of two does no harm, because the grid goes one step further than its exponent does.

* **`rung_strictMono`**: more bits, larger numbers.
* **`nearestRung_of_grid`**: on a grid, rounding the count finds the nearest rung.
* **`exists_nearestRung`**: so a quotient is rounded to the nearest rung, which is then cut off at
  infinity.
-/

namespace LoxScan

-- ── Rounding a quotient ─────────────

/-- A quotient is rounded down if it is before halfway to the next whole number, or halfway to it
from an even one, and up in the other cases. -/
theorem roundHalfEven_cases (num den : ℕ) :
    (roundHalfEven num den = num / den ∧ 2 * num ≤ (2 * (num / den) + 1) * den ∧
        (2 * num = (2 * (num / den) + 1) * den → Even (num / den))) ∨
      (roundHalfEven num den = num / den + 1 ∧ (2 * (num / den) + 1) * den ≤ 2 * num ∧
        (2 * num = (2 * (num / den) + 1) * den → Even (num / den + 1))) := by
  have whole : num = den * (num / den) + num % den := (Nat.div_add_mod num den).symm
  have expand : (2 * (num / den) + 1) * den = 2 * (den * (num / den)) + den := by ring
  rw [expand, Nat.even_add_one]
  simp only [roundHalfEven, Nat.even_iff]
  generalize num / den = quotient at *
  generalize den * quotient = down at *
  split
  case isTrue less => exact Or.inl ⟨rfl, by omega, by omega⟩
  case isFalse =>
    split
    case isTrue more => exact Or.inr ⟨rfl, by omega, by omega⟩
    case isFalse =>
      rcases Nat.mod_two_eq_zero_or_one quotient with even | odd
      · exact Or.inl ⟨by omega, by omega, fun _ => even⟩
      · exact Or.inr ⟨by omega, by omega, by omega⟩

-- ── Rounding on a grid ──────────────

section Grid

variable {ladder : ℕ → ℚ} {x unit : ℚ} {num den start : ℕ} (positive : 0 < unit)
    (denPos : 0 < den)
  (ratio : x * den = num * unit)
include positive denPos ratio

/-- A quotient of units is compared with whole counts of them as the numerator is. -/
theorem mul_unit_le_iff (count times : ℕ) :
    count * unit ≤ times * x ↔ count * den ≤ times * num := by
  have denCast : (0 : ℚ) < den := Nat.cast_pos.2 denPos
  rw [← mul_le_mul_iff_left₀ denCast, mul_assoc _ x, ratio, ← mul_assoc, mul_right_comm,
    mul_le_mul_iff_left₀ positive]
  exact_mod_cast Iff.rfl

theorem le_mul_unit_iff (count times : ℕ) :
    times * x ≤ count * unit ↔ times * num ≤ count * den := by
  have denCast : (0 : ℚ) < den := Nat.cast_pos.2 denPos
  rw [← mul_le_mul_iff_left₀ denCast, mul_assoc _ x, ratio, ← mul_assoc,
    mul_right_comm (count : ℚ), mul_le_mul_iff_left₀ positive]
  exact_mod_cast Iff.rfl

/-- **One grid.** Where two rungs are the counts of units next to a quotient, the nearest rung is
found by rounding the quotient. -/
theorem nearestRung_of_grid (climbs : StrictMono ladder) (even : Even start)
    (lower : ladder (start + num / den) = (num / den : ℕ) * unit)
    (upper : ladder (start + num / den + 1) = (num / den + 1 : ℕ) * unit) :
    NearestRung ladder x (start + roundHalfEven num den) := by
  have half : ladder (start + num / den) + ladder (start + num / den + 1) =
      (2 * (num / den) + 1 : ℕ) * unit := by
    rw [lower, upper]
    push_cast
    ring
  have parity (count : ℕ) : Even (start + count) ↔ Even count := by
    simp only [Nat.even_add, even, true_iff]
  have least : ((num / den : ℕ) : ℚ) * unit ≤ x := by
    simpa using (mul_unit_le_iff positive denPos ratio _ 1).2
      (by simpa using Nat.div_mul_le_self num den)
  have most : x ≤ (num / den + 1 : ℕ) * unit := by
    refine le_of_eq_of_le (one_mul x).symm ?_
    refine mod_cast (le_mul_unit_iff positive denPos ratio (num / den + 1) 1).2 ?_
    rw [Nat.one_mul, Nat.add_one_mul]
    exact (Nat.lt_div_mul_add denPos).le
  have halfway : 2 * x = (2 * (num / den) + 1 : ℕ) * unit →
      2 * num = (2 * (num / den) + 1) * den := by
    intro equal
    exact Nat.le_antisymm ((le_mul_unit_iff positive denPos ratio _ 2).1 equal.le)
      ((mul_unit_le_iff positive denPos ratio _ 2).1 equal.ge)
  rcases roundHalfEven_cases num den with ⟨result, before, tie⟩ | ⟨result, past, tie⟩
  · rw [result]
    refine nearestRung_lower climbs (lower.trans_le least) ?_ ?_
    · rw [half]
      exact (le_mul_unit_iff positive denPos ratio _ 2).2 before
    · rw [half]
      exact fun equal => (parity _).2 (tie (halfway equal))
  · rw [result, ← Nat.add_assoc]
    refine nearestRung_upper climbs (most.trans_eq upper.symm) ?_ ?_
    · rw [half]
      exact (mul_unit_le_iff positive denPos ratio _ 2).2 past
    · rw [half]
      exact fun equal => (parity _).2 (tie (halfway equal))

end Grid

namespace Double

-- ── The rungs of doubles ────────────

/-- The size in units of the double with given bits. Past the bits of infinity the row goes on, with
larger and larger exponents. -/
def rung (n : ℕ) : ℕ :=
  if n / fractions = 0 then n % fractions
  else (fractions + n % fractions) * Nat.pow 2 (n / fractions - 1)

theorem units_eq_rung (d : Double) : d.units = rung d.magnitude :=
  rfl

theorem fractions_pos : 0 < fractions := by
  decide

/-- Below the first exponent, the bits count the units. -/
theorem rung_of_lt {fraction : ℕ} (small : fraction < fractions) : rung fraction = fraction := by
  rw [rung, Nat.div_eq_of_lt small, if_pos rfl, Nat.mod_eq_of_lt small]

/-- Each exponent after the first doubles them. -/
theorem rung_succ_mul_add (exponent : ℕ) {fraction : ℕ} (small : fraction < fractions) :
    rung ((exponent + 1) * fractions + fraction) = (fractions + fraction) * 2 ^ exponent := by
  have field : ((exponent + 1) * fractions + fraction) / fractions = exponent + 1 := by
    rw [Nat.add_comm, Nat.add_mul_div_right _ _ fractions_pos, Nat.div_eq_of_lt small, Nat.zero_add]
  have rest : ((exponent + 1) * fractions + fraction) % fractions = fraction := by
    rw [Nat.mul_add_mod_self_right, Nat.mod_eq_of_lt small]
  rw [rung, field, rest, if_neg (Nat.succ_ne_zero exponent)]
  rfl

/-- Dropped digits and a count that fifty-three digits hold, or just not any more, add up to
bits. -/
theorem rung_add {dropped count : ℕ} (fits : count ≤ 2 * fractions)
    (full : dropped = 0 ∨ fractions ≤ count) :
    rung (dropped * fractions + count) = count * 2 ^ dropped := by
  rcases Nat.lt_or_ge count fractions with small | large
  · obtain rfl : dropped = 0 := full.resolve_right (Nat.not_le.2 small)
    rw [Nat.zero_mul, Nat.zero_add, rung_of_lt small, Nat.pow_zero, Nat.mul_one]
  · obtain ⟨fraction, rfl⟩ := Nat.exists_eq_add_of_le large
    rcases Nat.lt_or_ge fraction fractions with small | carried
    · have bits :
          dropped * fractions + (fractions + fraction) = (dropped + 1) * fractions + fraction := by
        ring
      rw [bits, rung_succ_mul_add dropped small]
    · -- Rounding has carried into the next exponent.
      obtain rfl : fraction = fractions := by omega
      have bits :
          dropped * fractions + (fractions + fractions) = (dropped + 1 + 1) * fractions + 0 := by
        ring
      rw [bits, rung_succ_mul_add (dropped + 1) fractions_pos]
      ring

/-- All bits are such a sum. -/
theorem exists_add (n : ℕ) :
    ∃ dropped count, n = dropped * fractions + count ∧ count < 2 * fractions ∧
    (dropped = 0 ∨ fractions ≤ count) := by
  have whole := Nat.div_add_mod' n fractions
  have rest := Nat.mod_lt n fractions_pos
  cases exponent : n / fractions with
  | zero =>
      refine ⟨0, n % fractions, ?_, by omega, Or.inl rfl⟩
      rw [exponent] at whole
      exact whole.symm
  | succ exponent' =>
      refine ⟨exponent', fractions + n % fractions, ?_, by omega, Or.inr (Nat.le_add_right ..)⟩
      rw [exponent] at whole
      calc n = (exponent' + 1) * fractions + n % fractions := whole.symm
        _ = exponent' * fractions + (fractions + n % fractions) := by ring

/-- More bits, more units. -/
theorem rung_strictMono : StrictMono rung := by
  refine strictMono_nat_of_lt_succ fun n => ?_
  obtain ⟨dropped, count, rfl, fits, full⟩ := exists_add n
  rw [Nat.add_assoc, rung_add fits.le full, rung_add fits (full.imp_right Nat.le_succ_of_le)]
  exact Nat.mul_lt_mul_of_pos_right (Nat.lt_succ_self count) (Nat.two_pow_pos dropped)

-- ── Rounding is to the nearest rung ──

theorem unitsPerOne_pos : 0 < unitsPerOne := by
  decide +kernel

/-- The value of the non-negative double with given bits, and of what would come after infinity. -/
def rungValue (n : ℕ) : ℚ :=
  rung n / unitsPerOne

theorem rungValue_strictMono : StrictMono rungValue := by
  intro m n less
  exact div_lt_div_of_pos_right (Nat.cast_lt.2 (rung_strictMono less))
    (Nat.cast_pos.2 unitsPerOne_pos)

/-- The value of a rung is a count of units that its dropped digits make larger. -/
theorem rungValue_add {dropped count : ℕ} (fits : count ≤ 2 * fractions)
    (full : dropped = 0 ∨ fractions ≤ count) :
    rungValue (dropped * fractions + count) = count * (2 ^ dropped / unitsPerOne) := by
  rw [rungValue, rung_add fits full, Nat.cast_mul, Nat.cast_pow, Nat.cast_ofNat, mul_div_assoc]

/-- Digits are dropped so that fifty-three are left, and none if there are not as many. -/
theorem fits_of_dropped (quotient : ℕ) :
    quotient / 2 ^ (quotient.log2 - 52) < 2 * fractions ∧
      (quotient.log2 - 52 = 0 ∨ fractions ≤ quotient / 2 ^ (quotient.log2 - 52)) := by
  have power : fractions = 2 ^ 52 := rfl
  have positive := Nat.two_pow_pos (quotient.log2 - 52)
  constructor
  · rw [Nat.div_lt_iff_lt_mul positive, power, ← Nat.pow_succ', ← Nat.pow_add]
    exact Nat.lt_of_lt_of_le Nat.lt_log2_self (Nat.pow_le_pow_right (by decide) (by omega))
  · rcases Nat.eq_zero_or_pos (quotient.log2 - 52) with noneDropped | dropping
    · exact Or.inl noneDropped
    · have nonzero : quotient ≠ 0 := by
        rintro rfl
        exact absurd dropping (by decide)
      refine Or.inr ((Nat.le_div_iff_mul_le positive).2 ?_)
      rw [power, ← Nat.pow_add, Nat.add_sub_of_le (by omega)]
      exact Nat.log2_self_le nonzero

/-- **Rounding.** The bits of a rounded quotient are the place of the nearest rung, cut off at
infinity. -/
theorem exists_nearestRung (num : ℕ) {den : ℕ} (denPos : 0 < den) :
    ∃ n, ofRatio num den = ofMagnitude (min infinityBits n) ∧
      NearestRung rungValue (num / den) n := by
  obtain ⟨fits, full⟩ := fits_of_dropped (num * unitsPerOne / den)
  rw [Nat.div_div_eq_div_mul] at fits full
  refine ⟨_, rfl, ?_⟩
  generalize (num * unitsPerOne / den).log2 - 52 = dropped at *
  have unitPos : (0 : ℚ) < 2 ^ dropped / unitsPerOne :=
    div_pos (pow_pos two_pos dropped) (Nat.cast_pos.2 unitsPerOne_pos)
  have stepPos : 0 < den * 2 ^ dropped := Nat.mul_pos denPos (Nat.two_pow_pos dropped)
  have even : Even (dropped * fractions) := Nat.even_mul.2 (Or.inr (by decide))
  have lower := rungValue_add fits.le full
  have upper := rungValue_add (Nat.succ_le_of_lt fits) (full.imp_right Nat.le_succ_of_le)
  rw [Nat.succ_eq_add_one, ← Nat.add_assoc] at upper
  show NearestRung _ _ (dropped * fractions + roundHalfEven (num * unitsPerOne) (den * 2 ^ dropped))
  refine nearestRung_of_grid unitPos stepPos ?_ rungValue_strictMono even lower upper
  have denNe : (den : ℚ) ≠ 0 := Nat.cast_ne_zero.2 denPos.ne'
  have onesNe : (unitsPerOne : ℚ) ≠ 0 := Nat.cast_ne_zero.2 unitsPerOne_pos.ne'
  rw [Nat.cast_mul, Nat.cast_mul, Nat.cast_pow, Nat.cast_ofNat]
  field_simp

/-- The next rung is no more than twice as large. -/
theorem rung_succ_le {n : ℕ} (nonzero : rung n ≠ 0) : rung (n + 1) ≤ 2 * rung n := by
  obtain ⟨dropped, count, rfl, fits, full⟩ := exists_add n
  have positive : 0 < count := by
    refine Nat.pos_of_ne_zero fun zero => nonzero ?_
    rw [rung_add fits.le full, zero, Nat.zero_mul]
  rw [Nat.add_assoc, rung_add fits.le full, rung_add fits (full.imp_right Nat.le_succ_of_le),
    ← Nat.mul_assoc]
  exact Nat.mul_le_mul_right _ (by omega)

theorem rungValue_succ_le {n : ℕ} (nonzero : rung n ≠ 0) :
    rungValue (n + 1) ≤ 2 * rungValue n := by
  rw [rungValue, rungValue, ← mul_div_assoc]
  exact div_le_div_of_nonneg_right (mod_cast rung_succ_le nonzero) unitsPerOne.cast_nonneg

end Double

end LoxScan
