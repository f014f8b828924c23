import Mathlib.Algebra.Order.Ring.Abs
import Mathlib.Data.Rat.Cast.Order
import Mathlib.Tactic.Linarith

/-!
# The nearest rung of a ladder

A ladder is a row of numbers, each larger than the one before it. Rounding a number to a ladder is
finding the rung that is nearest to it, and of two equally near ones that with an even place.
Nothing here depends on what the rungs are. To find the nearest rung it is enough to look at the one
below and the one above, and the nearest rung is the only one: between two rungs with an even place
there is another, and it is nearer to what is halfway.

* **`nearestRung_lower`**, **`nearestRung_upper`**: what is between two rungs is nearest to one of
  these.
* **`NearestRung.unique`**, **`NearestRung.le_of_le`**: the nearest rung is unique, and a larger
  number has no lower one.
* **`NearestRung.lt_iff`**: past a rung with an odd place, rounding goes on from halfway to the
  next.
-/

namespace LoxScan

/-- The rung at place `k` is the nearest to `x`; if another is as near, then `k` is even. -/
structure NearestRung (ladder : ℕ → ℚ) (x : ℚ) (k : ℕ) : Prop where
  closest : ∀ j, |x - ladder k| ≤ |x - ladder j|
  even : ∀ j, j ≠ k → |x - ladder j| = |x - ladder k| → Even k

-- ── Halfway ─────────────────────────

/-- Before halfway, the lower of two numbers is nearer. -/
theorem abs_sub_lt_of_before {a b x : ℚ} (less : a < b) (before : 2 * x < a + b) :
    |x - a| < |x - b| := by
  refine lt_of_lt_of_le (abs_lt.2 ⟨?_, ?_⟩) (neg_le_abs (x - b)) <;> linarith

/-- Past halfway, the upper one is. -/
theorem abs_sub_lt_of_past {a b x : ℚ} (less : a < b) (past : a + b < 2 * x) :
    |x - b| < |x - a| := by
  refine lt_of_lt_of_le (abs_lt.2 ⟨?_, ?_⟩) (le_abs_self (x - a)) <;> linarith

section Ladder

variable {ladder : ℕ → ℚ} (climbs : StrictMono ladder) {x y : ℚ} {k l n : ℕ}
include climbs

-- ── Finding it ──────────────────────

/-- What is not below a rung and not past halfway to the next is nearest to that rung, if it is not
halfway or the rung has an even place. -/
theorem nearestRung_lower (low : ladder n ≤ x) (half : 2 * x ≤ ladder n + ladder (n + 1))
    (tie : 2 * x = ladder n + ladder (n + 1) → Even n) : NearestRung ladder x n := by
  have own : |x - ladder n| = x - ladder n := abs_of_nonneg (sub_nonneg.2 low)
  have below {j : ℕ} (h : j < n) : x - ladder n < |x - ladder j| := by
    have lower := climbs h
    have far := le_abs_self (x - ladder j)
    linarith
  have above {j : ℕ} (h : n < j) : ladder (n + 1) - x ≤ |x - ladder j| := by
    have higher := climbs.monotone (Nat.succ_le_of_lt h)
    have far := neg_le_abs (x - ladder j)
    linarith
  refine ⟨fun j => ?_, fun j other equidistant => ?_⟩
  · rw [own]
    rcases Nat.lt_trichotomy j n with h | rfl | h
    · exact (below h).le
    · exact own.ge
    · have far := above h
      linarith
  · rw [own] at equidistant
    rcases Nat.lt_or_gt_of_ne other with h | h
    · exact absurd equidistant (below h).ne'
    · have far := above h
      exact tie (by linarith)

/-- What is not above a rung and not before halfway to it is nearest to that rung, if it is not
halfway or the rung has an even place. -/
theorem nearestRung_upper (high : x ≤ ladder (n + 1)) (half : ladder n + ladder (n + 1) ≤ 2 * x)
    (tie : 2 * x = ladder n + ladder (n + 1) → Even (n + 1)) : NearestRung ladder x (n + 1) := by
  have own : |x - ladder (n + 1)| = ladder (n + 1) - x := by
    rw [abs_of_nonpos (sub_nonpos.2 high), neg_sub]
  have below {j : ℕ} (h : j < n + 1) : x - ladder n ≤ |x - ladder j| := by
    have lower := climbs.monotone (Nat.le_of_lt_succ h)
    have far := le_abs_self (x - ladder j)
    linarith
  have above {j : ℕ} (h : n + 1 < j) : ladder (n + 1) - x < |x - ladder j| := by
    have higher := climbs h
    have far := neg_le_abs (x - ladder j)
    linarith
  refine ⟨fun j => ?_, fun j other equidistant => ?_⟩
  · rw [own]
    rcases Nat.lt_trichotomy j (n + 1) with h | rfl | h
    · have far := below h
      linarith
    · exact own.ge
    · exact (above h).le
  · rw [own] at equidistant
    rcases Nat.lt_or_gt_of_ne other with h | h
    · have far := below h
      exact tie (by linarith)
    · exact absurd equidistant (above h).ne'

/-- A rung is the nearest to itself. -/
theorem nearestRung_self (n : ℕ) : NearestRung ladder (ladder n) n := by
  have next := climbs (Nat.lt_succ_self n)
  exact nearestRung_lower climbs le_rfl (by linarith) fun half => absurd half (by linarith)

-- ── There is only one ───────────────

/-- If the lower of two rungs is as near, the number is not past halfway. -/
theorem NearestRung.le_half (h : NearestRung ladder x k) (below : k < l) :
    2 * x ≤ ladder k + ladder l := by
  by_contra past
  exact (abs_sub_lt_of_past (climbs below) (not_le.1 past)).not_ge (h.closest l)

/-- If the upper of two rungs is as near, the number is not before halfway. -/
theorem NearestRung.half_le (h : NearestRung ladder x l) (below : k < l) :
    ladder k + ladder l ≤ 2 * x := by
  by_contra before
  exact (abs_sub_lt_of_before (climbs below) (not_le.1 before)).not_ge (h.closest k)

/-- Of two nearest rungs, neither is below the other. -/
theorem NearestRung.not_below (first : NearestRung ladder x k) (second : NearestRung ladder x l) :
    ¬ k < l := by
  intro below
  have tied : |x - ladder k| = |x - ladder l| := le_antisymm (first.closest l) (second.closest k)
  have evenFirst := first.even l below.ne' tied.symm
  have evenSecond := second.even k below.ne tied
  have between : k + 1 < l := by
    refine lt_of_le_of_ne (Nat.succ_le_of_lt below) fun next => ?_
    rw [← next, Nat.even_add_one] at evenSecond
    exact evenSecond evenFirst
  -- So `x` is halfway between the two, and the rung after the first is nearer.
  have higher := climbs between
  have half := second.half_le climbs below
  have near := first.le_half climbs (Nat.lt_succ_self k)
  linarith

/-- **Uniqueness.** There is only one nearest rung. -/
theorem NearestRung.unique (first : NearestRung ladder x k) (second : NearestRung ladder x l) :
    k = l :=
  Nat.le_antisymm (Nat.not_lt.1 (second.not_below climbs first))
    (Nat.not_lt.1 (first.not_below climbs second))

/-- **Order.** A larger number has no lower nearest rung. -/
theorem NearestRung.le_of_le (first : NearestRung ladder x k) (second : NearestRung ladder y l)
    (le : x ≤ y) : k ≤ l := by
  by_contra above
  have past := first.half_le climbs (Nat.not_le.1 above)
  have before := second.le_half climbs (Nat.not_le.1 above)
  obtain rfl : x = y := by linarith
  exact above (first.unique climbs second).le

/-- Past a rung with an odd place, rounding goes on from halfway to the next. -/
theorem NearestRung.lt_iff (h : NearestRung ladder x k) (odd : ¬ Even n) :
    n < k ↔ ladder n + ladder (n + 1) ≤ 2 * x := by
  constructor
  · intro above
    have past := h.half_le climbs above
    have higher := climbs.monotone (Nat.succ_le_of_lt above)
    linarith
  · intro half
    by_cases high : x ≤ ladder (n + 1)
    · have even : 2 * x = ladder n + ladder (n + 1) → Even (n + 1) :=
        fun _ => Nat.even_add_one.2 odd
      rw [h.unique climbs (nearestRung_upper climbs high half even)]
      exact Nat.lt_succ_self n
    · exact (nearestRung_self climbs (n + 1)).le_of_le climbs h (not_le.1 high).le

end Ladder

end LoxScan
