import LoxScan.Number.Rounding

/-!
# The nearest double

`Double.Nearest` says of a number and a double what the standard for doubles says of rounding to
nearest, ties to even, and knows nothing of how that is done. The value of a double is read off its
three fields. From half a step past the largest finite double on, the nearest double is infinity.
Before, it is a finite one: no finite double, of either sign, is nearer, and if another value is as
near, the last bit is not set.

There is exactly one such double for every number that is not negative, and the rounding of
quotients finds it. A larger number never has a smaller one.

* **`nearest_of_nearestRung`**, **`Nearest.nearestRung`**: the nearest double is that of the nearest
  rung, cut off at infinity.
* **`nearest_ofRatio`**: the rounding of a quotient is its nearest double.
* **`Nearest.unique`**, **`Nearest.magnitude_le`**: there is only one, and larger numbers have no
  smaller ones.
-/

namespace LoxScan.Double

-- ── Values ──────────────────────────

/-- The value of a finite double by its fields: the fraction counts in steps of the least exponent
if the exponent is zero, and stands behind a leading one if it is not. -/
def value (d : Double) : ℚ :=
  let exponent := d.magnitude / fractions
  let fraction : ℚ := (d.magnitude % fractions : ℕ) / 2 ^ 52
  let size : ℚ :=
    if exponent = 0 then fraction * 2 ^ (-1022 : ℤ)
      else (1 + fraction) * 2 ^ ((exponent : ℤ) - 1023)
  if d.isNegative then -size else size

/-- Half a step past the largest finite double. -/
def overflow : ℚ :=
  (2 - 1 / 2 ^ 53) * 2 ^ (1023 : ℤ)

/-- The double nearest to a number that is not negative. -/
structure Nearest (x : ℚ) (d : Double) : Prop where
  sign : d.isNegative = false
  finite_iff : d.isFinite = true ↔ x < overflow
  infinite_iff : d.isInfinite = true ↔ overflow ≤ x
  closest : d.isFinite = true → ∀ e : Double, e.isFinite = true →
    |x - d.value| ≤ |x - e.value|
  even : d.isFinite = true → ∀ e : Double, e.isFinite = true → e.value ≠ d.value →
    |x - e.value| = |x - d.value| → Even d.magnitude

theorem cast_pow_two (n : ℕ) : ((Nat.pow 2 n : ℕ) : ℚ) = 2 ^ (n : ℤ) := by
  rw [Nat.pow_eq, Nat.cast_pow, Nat.cast_ofNat, zpow_natCast]

theorem cast_fractions : (fractions : ℚ) = 2 ^ (52 : ℤ) :=
  cast_pow_two 52

theorem rungValue_eq_zpow (n : ℕ) : rungValue n = rung n * 2 ^ (-1074 : ℤ) := by
  have ones : (unitsPerOne : ℚ) = 2 ^ ((1074 : ℕ) : ℤ) := by
    unfold unitsPerOne
    generalize 1074 = n
    exact cast_pow_two n
  rw [rungValue, ones, div_eq_mul_inv, ← zpow_neg]
  rfl

/-- The value of a double is that of its rung. -/
theorem value_eq (d : Double) :
    d.value = if d.isNegative then -rungValue d.magnitude else rungValue d.magnitude := by
  have two : (2 : ℚ) ≠ 0 := two_ne_zero
  have places : (2 : ℚ) ^ 52 = 2 ^ (52 : ℤ) := rfl
  have valued : rungValue d.magnitude = if d.magnitude / fractions = 0
      then ((d.magnitude % fractions : ℕ) / 2 ^ 52 : ℚ) * 2 ^ (-1022 : ℤ)
      else (1 + (d.magnitude % fractions : ℕ) / 2 ^ 52) *
        2 ^ (((d.magnitude / fractions : ℕ) : ℤ) - 1023) := by
    rw [rungValue_eq_zpow, rung]
    generalize d.magnitude % fractions = fraction
    cases d.magnitude / fractions with
    | zero =>
        rw [if_pos rfl, if_pos rfl, places, div_eq_mul_inv, ← zpow_neg, mul_assoc,
          ← zpow_add₀ two]
        rfl
    | succ exponent =>
        have bits : (exponent : ℤ) + 1 - 1023 = exponent + -1074 + 52 := by ring
        rw [if_neg (Nat.succ_ne_zero exponent), if_neg (Nat.succ_ne_zero exponent),
          Nat.add_sub_cancel, Nat.cast_mul, Nat.cast_add, cast_pow_two, cast_fractions, places,
          Nat.cast_succ, bits, zpow_add₀ two, zpow_add₀ two]
        field_simp
  rw [valued]
  rfl

theorem value_of_not_negative {d : Double} (sign : d.isNegative = false) :
    d.value = rungValue d.magnitude := by
  rw [value_eq, sign, if_neg Bool.false_ne_true]

theorem rungValue_zero : rungValue 0 = 0 := by
  rw [rungValue, rung, Nat.zero_div, Nat.zero_mod, if_pos rfl, Nat.cast_zero, zero_div]

theorem rungValue_nonneg (n : ℕ) : 0 ≤ rungValue n :=
  rungValue_zero.ge.trans (rungValue_strictMono.monotone n.zero_le)

/-- The value of a rung past the first exponent. -/
theorem rungValue_succ_mul_add (exponent : ℕ) {fraction : ℕ} (small : fraction < fractions) :
    rungValue ((exponent + 1) * fractions + fraction) =
      (fractions + fraction : ℕ) * 2 ^ ((exponent : ℤ) + -1074) := by
  rw [rungValue_eq_zpow, rung_succ_mul_add exponent small, zpow_add₀ two_ne_zero, zpow_natCast,
    Nat.cast_mul, Nat.cast_pow, Nat.cast_ofNat, mul_assoc]

/-- Halfway between the largest finite double and the next power of two, numbers begin to
overflow. -/
theorem rungValue_add_rungValue :
    rungValue (infinityBits - 1) + rungValue infinityBits = 2 * overflow := by
  have last : infinityBits - 1 = (2045 + 1) * fractions + (fractions - 1) := by
    have := fractions_pos
    rw [infinityBits]
    omega
  have next : infinityBits = (2046 + 1) * fractions + 0 := rfl
  have digits : (fractions + (fractions - 1) : ℕ) = 2 ^ 53 - 1 := rfl
  have digits' : (fractions + 0 : ℕ) = 2 ^ 52 := rfl
  have exponent : ((2045 : ℕ) : ℤ) + -1074 = 971 := rfl
  have exponent' : ((2046 : ℕ) : ℤ) + -1074 = 971 + 1 := rfl
  have power : (1023 : ℤ) = 52 + 971 := rfl
  rw [last, rungValue_succ_mul_add 2045 (Nat.sub_lt fractions_pos Nat.one_pos), next,
    rungValue_succ_mul_add 2046 fractions_pos, digits, digits', exponent, exponent', overflow,
    power, zpow_add₀ two_ne_zero, zpow_add₀ two_ne_zero]
  generalize (2 ^ (971 : ℤ) : ℚ) = step
  norm_num
  ring

-- ── Doubles by their rungs ──────────

/-- The double at a place of the ladder, which is infinity past the finite ones. -/
def ofRung (n : ℕ) : Double :=
  ofMagnitude (min infinityBits n)

theorem infinityBits_lt : infinityBits < signWeight := by
  decide

theorem isFinite_iff {d : Double} : d.isFinite = true ↔ d.magnitude < infinityBits :=
  decide_eq_true_iff

theorem isInfinite_iff {d : Double} : d.isInfinite = true ↔ d.magnitude = infinityBits :=
  beq_iff_eq

theorem isNaN_eq_false_iff {d : Double} : d.isNaN = false ↔ d.magnitude ≤ infinityBits := by
  rw [isNaN, decide_eq_false_iff_not, Nat.not_lt]

theorem magnitude_ofRung (n : ℕ) : (ofRung n).magnitude = min infinityBits n :=
  magnitude_ofMagnitude (Nat.lt_of_le_of_lt (Nat.min_le_left ..) infinityBits_lt)

theorem isNegative_ofRung (n : ℕ) : (ofRung n).isNegative = false := by
  have small :
    min infinityBits n < signWeight := Nat.lt_of_le_of_lt (Nat.min_le_left ..) infinityBits_lt
  have wide : min infinityBits n < UInt64.size := Nat.lt_trans small (by decide)
  rw [isNegative, ofRung, ofMagnitude, decide_eq_false_iff_not, UInt64.toNat_ofNat_of_lt' wide]
  exact Nat.not_le.2 small

theorem isFinite_ofRung {n : ℕ} : (ofRung n).isFinite = true ↔ n < infinityBits := by
  rw [isFinite_iff, magnitude_ofRung]
  omega

theorem isInfinite_ofRung {n : ℕ} : (ofRung n).isInfinite = true ↔ infinityBits ≤ n := by
  rw [isInfinite_iff, magnitude_ofRung]
  omega

theorem value_ofRung {n : ℕ} (finite : n < infinityBits) : (ofRung n).value = rungValue n := by
  rw [value_of_not_negative (isNegative_ofRung n), magnitude_ofRung, Nat.min_eq_right finite.le]

/-- A double without a sign that is no NaN is found at the place that its bits say. -/
theorem ofRung_magnitude {d : Double} (sign : d.isNegative = false)
    (real : d.magnitude ≤ infinityBits) :
    ofRung d.magnitude = d := by
  rw [ofRung, Nat.min_eq_right real, ofMagnitude_magnitude sign]

-- ── The nearest double is that of the nearest rung ──

variable {x y : ℚ} {d e : Double} {n : ℕ}

/-- Without its sign, a double is no farther from a number that is not negative. -/
theorem abs_sub_rungValue_le (nonneg : 0 ≤ x) (e : Double) :
    |x - rungValue e.magnitude| ≤ |x - e.value| := by
  have size := rungValue_nonneg e.magnitude
  rw [value_eq]
  split
  case isTrue =>
    rw [sub_neg_eq_add]
    refine (abs_le.2 ⟨?_, ?_⟩).trans (le_abs_self _) <;> linarith
  case isFalse => exact le_rfl

/-- What is nearest among all rungs is nearest among all doubles. -/
theorem nearest_of_nearestRung (nonneg : 0 ≤ x) (rung : NearestRung rungValue x n) :
    Nearest x (ofRung n) := by
  have halfway : infinityBits ≤ n ↔ overflow ≤ x := by
    have odd : ¬ Even (infinityBits - 1) := by decide
    have past := rung.lt_iff rungValue_strictMono odd
    have next : infinityBits - 1 + 1 = infinityBits := rfl
    rw [next, rungValue_add_rungValue, mul_le_mul_iff_right₀ two_pos] at past
    rw [← past]
    omega
  refine ⟨isNegative_ofRung n, ?_, isInfinite_ofRung.trans halfway, ?_, ?_⟩
  · rw [isFinite_ofRung, ← not_le, ← not_le, halfway]
  · intro finite e _
    rw [value_ofRung (isFinite_ofRung.1 finite)]
    exact (rung.closest _).trans (abs_sub_rungValue_le nonneg e)
  · intro finite e _ other tie
    have below := isFinite_ofRung.1 finite
    rw [value_ofRung below] at other tie
    rw [magnitude_ofRung, Nat.min_eq_right below.le]
    have close := abs_sub_rungValue_le nonneg e
    refine rung.even e.magnitude ?_ (le_antisymm (close.trans tie.le) (rung.closest _))
    -- With the same bits but another value it has the other sign, and zero would be nearer.
    intro bits
    rw [value_eq, bits] at other tie
    split at other
    case isTrue negative =>
      rw [if_pos negative, sub_neg_eq_add] at tie
      have size := rungValue_nonneg n
      have zero := rung.closest 0
      rw [rungValue_zero, sub_zero, abs_of_nonneg nonneg, ← tie] at zero
      have far := le_abs_self (x + rungValue n)
      exact other (by linarith)
    case isFalse => exact other rfl

/-- What is nearest among all doubles is nearest among all rungs. -/
theorem Nearest.nearestRung (h : Nearest x d) (finite : d.isFinite = true) :
    NearestRung rungValue x d.magnitude := by
  have before : 2 * x < rungValue (infinityBits - 1) + rungValue infinityBits := by
    rw [rungValue_add_rungValue]
    exact mul_lt_mul_of_pos_left (h.finite_iff.1 finite) two_pos
  have own := value_of_not_negative h.sign
  have below {j : ℕ} (less : j < infinityBits) :
      |x - rungValue d.magnitude| ≤ |x - rungValue j| := by
    rw [← own, ← value_ofRung less]
    exact h.closest finite _ (isFinite_ofRung.2 less)
  -- A rung that is no finite double is farther than the largest finite one.
  have above {j : ℕ} (more : infinityBits ≤ j) :
      |x - rungValue d.magnitude| < |x - rungValue j| := by
    have last : infinityBits - 1 < infinityBits := by decide
    have higher := rungValue_strictMono.monotone more
    have less := rungValue_strictMono (last.trans_le more)
    exact (below last).trans_lt (abs_sub_lt_of_before less (by linarith))
  refine ⟨fun j => ?_, fun j other tie => ?_⟩
  · rcases Nat.lt_or_ge j infinityBits with less | more
    · exact below less
    · exact (above more).le
  · rcases Nat.lt_or_ge j infinityBits with less | more
    · refine h.even finite _ (isFinite_ofRung.2 less) ?_ ?_
      · rw [value_ofRung less, own]
        exact fun equal => other (rungValue_strictMono.injective equal)
      · rw [value_ofRung less, own, tie]
    · exact absurd tie (above more).ne'

theorem Nearest.finite_or_infinite (h : Nearest x d) :
    d.isFinite = true ∨ d.isInfinite = true := by
  rw [h.finite_iff, h.infinite_iff]
  exact lt_or_ge x overflow

/-- The nearest double is not a NaN. -/
theorem Nearest.isNaN_eq_false (h : Nearest x d) : d.isNaN = false := by
  rw [isNaN_eq_false_iff]
  rcases h.finite_or_infinite with finite | infinite
  · exact (isFinite_iff.1 finite).le
  · exact (isInfinite_iff.1 infinite).le

/-- **Order.** A larger number has no smaller nearest double. -/
theorem Nearest.magnitude_le (first : Nearest x d) (second : Nearest y e) (le : x ≤ y) :
    d.magnitude ≤ e.magnitude := by
  rcases second.finite_or_infinite with finite | infinite
  · have finite' := first.finite_iff.2 (le.trans_lt (second.finite_iff.1 finite))
    exact (first.nearestRung finite').le_of_le rungValue_strictMono (second.nearestRung finite) le
  · rw [isInfinite_iff.1 infinite]
    exact isNaN_eq_false_iff.1 first.isNaN_eq_false

/-- As infinity is above all values, this is also the order of the values. -/
theorem Nearest.value_le (first : Nearest x d) (second : Nearest y e) (le : x ≤ y)
    (finite : e.isFinite = true) : d.isFinite = true ∧ d.value ≤ e.value := by
  refine ⟨first.finite_iff.2 (le.trans_lt (second.finite_iff.1 finite)), ?_⟩
  rw [value_of_not_negative first.sign, value_of_not_negative second.sign]
  exact rungValue_strictMono.monotone (first.magnitude_le second le)

/-- What is between two numbers with one nearest double has it as well. -/
theorem Nearest.eq_of_between {z : ℚ} (first : Nearest x d) (second : Nearest y d)
    (near : Nearest z e)
    (low : x ≤ z) (high : z ≤ y) : e = d := by
  have equal := Nat.le_antisymm (near.magnitude_le second high) (first.magnitude_le near low)
  rw [← ofMagnitude_magnitude near.sign, ← ofMagnitude_magnitude first.sign, equal]

/-- **Uniqueness.** There is only one nearest double. -/
theorem Nearest.unique (first : Nearest x d) (second : Nearest x e) : d = e :=
  second.eq_of_between second first le_rfl le_rfl

-- ── Rounding finds it ───────────────

/-- **Quotients.** The rounding of a quotient is its nearest double. -/
theorem nearest_ofRatio (num : ℕ) {den : ℕ} (denPos : 0 < den) :
    Nearest (num / den) (ofRatio num den) := by
  obtain ⟨n, result, rung⟩ := exists_nearestRung num denPos
  rw [result]
  exact nearest_of_nearestRung (div_nonneg num.cast_nonneg den.cast_nonneg) rung

/-- **Doubles.** A finite double is the nearest to its own value. -/
theorem nearest_value (sign : d.isNegative = false) (finite : d.isFinite = true) :
    Nearest d.value d := by
  have below := isFinite_iff.1 finite
  have own := nearest_of_nearestRung (rungValue_nonneg d.magnitude)
    (nearestRung_self rungValue_strictMono d.magnitude)
  rwa [ofRung_magnitude sign below.le, ← value_of_not_negative sign] at own

end LoxScan.Double
