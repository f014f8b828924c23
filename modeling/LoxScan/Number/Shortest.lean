import LoxScan.Number.Numeral

/-!
# The shortest numeral of a double

A decimal grid has a point just below a double, or on it, and one just above. All numbers between
two that are read as the same double are read as this double as well, so if any point of the grid
reads back, one of these two does, and the nearer of those that do is the nearest of all. On the
finest grid the double itself is a point. So the search finds a numeral that reads back, on the
coarsest grid that has any: the grids that it leaves out at the start have steps of more than twice
the double, and a number that is twice as large is not read as it.

* **`nearestReadBack_of_eq_some`**, **`toDouble_ne_of_eq_none`**: what is found on a grid is the
  nearest point of it that reads back, and if nothing is found, there is none.
* **`exists_shortest`**: the shortest numeral is on the coarsest grid that has a point that reads
  back.
* **`toDouble_shortest`**: it reads back.
* **`places_shortest_le_of_toDouble`**: no numeral that reads back has fewer places.
-/

namespace LoxScan.Decimal

variable {d : Double}

-- ── Grid points ─────────────────────

/-- A point of a grid in steps of the finest grid. -/
theorem value_onGrid (level count : ℕ) :
    (onGrid level count).value = (count * 10 ^ level : ℕ) / 10 ^ finestPlaces := by
  rw [value, onGrid]
  generalize finestPlaces = finest
  have ten : (10 : ℚ) ≠ 0 := by norm_num
  have places : level - finest + finest = level + (finest - level) := by omega
  rw [Nat.pow_eq, div_eq_div_iff (pow_ne_zero _ ten) (pow_ne_zero _ ten)]
  push_cast
  rw [mul_assoc, mul_assoc, ← pow_add, ← pow_add, places]

/-- A finite double is a point of the finest grid. -/
theorem value_eq_finestSteps (sign : d.isNegative = false) :
    d.value = finestSteps d / 10 ^ finestPlaces := by
  rw [Double.value_of_not_negative sign, Double.rungValue, finestSteps, Double.units_eq_rung]
  unfold Double.unitsPerOne finestPlaces
  generalize 1074 = finest
  have ten : (10 : ℚ) = 2 * 5 := by norm_num
  rw [ten, mul_pow, Nat.pow_eq, Nat.pow_eq]
  push_cast
  field_simp

theorem finestScale_pos : (0 : ℚ) < 10 ^ finestPlaces :=
  pow_pos (by norm_num) _

/-- What is compared with the points of a grid is compared in steps of the finest one. -/
theorem value_onGrid_le_iff (sign : d.isNegative = false) {level count : ℕ} :
    (onGrid level count).value ≤ d.value ↔ count * 10 ^ level ≤ finestSteps d := by
  rw [value_onGrid, value_eq_finestSteps sign, div_le_div_iff_of_pos_right finestScale_pos,
    Nat.cast_le]

theorem le_value_onGrid_iff (sign : d.isNegative = false) {level count : ℕ} :
    d.value ≤ (onGrid level count).value ↔ finestSteps d ≤ count * 10 ^ level := by
  rw [value_onGrid, value_eq_finestSteps sign, div_le_div_iff_of_pos_right finestScale_pos,
    Nat.cast_le]

theorem value_onGrid_le (level : ℕ) {count count' : ℕ} (le : count ≤ count') :
    (onGrid level count).value ≤ (onGrid level count').value := by
  rw [value_onGrid, value_onGrid, div_le_div_iff_of_pos_right finestScale_pos, Nat.cast_le]
  exact Nat.mul_le_mul_right _ le

/-- The last point of a grid that is not above a double. -/
def below (d : Double) (level : ℕ) : Decimal :=
  onGrid level (finestSteps d / 10 ^ level)

/-- The point after it. -/
def above (d : Double) (level : ℕ) : Decimal :=
  onGrid level (finestSteps d / 10 ^ level + 1)

theorem nearestOnGrid?_eq (d : Double) (level : ℕ) :
    nearestOnGrid? d level =
      if (below d level).toDouble = d then
        if (above d level).toDouble = d ∧ 10 ^ level ≤ 2 * (finestSteps d % 10 ^ level) then
          some (above d level)
        else some (below d level)
      else if (above d level).toDouble = d then some (above d level)
      else none :=
  rfl

section Neighbours

variable (sign : d.isNegative = false) (level : ℕ)
include sign

theorem value_below_le : (below d level).value ≤ d.value :=
  (value_onGrid_le_iff sign).2 (Nat.div_mul_le_self ..)

theorem le_value_above : d.value ≤ (above d level).value := by
  have step : 0 < 10 ^ level := Nat.pow_pos (by decide)
  refine (le_value_onGrid_iff sign).2 ?_
  rw [Nat.add_one_mul]
  exact (Nat.lt_div_mul_add step).le

/-- Which of the two is nearer is seen in what is left over. -/
theorem half_le_value_iff :
    (below d level).value + (above d level).value ≤ 2 * d.value ↔
      10 ^ level ≤ 2 * (finestSteps d % 10 ^ level) := by
  have whole := Nat.div_add_mod (finestSteps d) (10 ^ level)
  rw [below, above, value_onGrid, value_onGrid, value_eq_finestSteps sign, ← add_div,
    ← mul_div_assoc, div_le_div_iff_of_pos_right finestScale_pos]
  generalize finestSteps d = steps at *
  generalize 10 ^ level = step at *
  norm_cast
  rw [Nat.add_one_mul, Nat.mul_comm _ step]
  omega

-- ── Points that read back ───────────

variable {level} (finite : d.isFinite = true) {count : ℕ}
    (readBack : (onGrid level count).toDouble = d)
include finite readBack

/-- Every point is on one side. If one that is not above a double reads back, so does the last such
point, for it lies between the two; and if one that is above reads back, so does the first such
point. -/
theorem below_or_above :
    ((onGrid level count).value ≤ (below d level).value ∧ (below d level).toDouble = d) ∨
      ((above d level).value ≤ (onGrid level count).value ∧ (above d level).toDouble = d) := by
  have near := (onGrid level count).nearest_toDouble
  rw [readBack] at near
  have own := Double.nearest_value sign finite
  rcases Nat.lt_or_ge (finestSteps d / 10 ^ level) count with past | before
  · have le := value_onGrid_le level past
    exact Or.inr ⟨le, own.eq_of_between near (above d level).nearest_toDouble
      (le_value_above sign level) le⟩
  · have le := value_onGrid_le level before
    exact Or.inl ⟨le, near.eq_of_between own (below d level).nearest_toDouble le
      (value_below_le sign level)⟩

end Neighbours

/-- A point of a grid that reads back as a double, such that no point of this grid that does is
nearer. -/
structure NearestReadBack (d : Double) (level : ℕ) (n : Decimal) : Prop where
  grid : ∃ count, n = onGrid level count
  readBack : n.toDouble = d
  closest : ∀ count, (onGrid level count).toDouble = d →
    |d.value - n.value| ≤ |d.value - (onGrid level count).value|

theorem firstFrom_of_eq_some {level : ℕ} {n : Decimal}
    (found : nearestOnGrid? d (level + 1) = some n) :
    firstFrom d (level + 1) = n := by
  rw [firstFrom, firstFound, found]

theorem firstFrom_of_eq_none {level : ℕ} (missing : nearestOnGrid? d (level + 1) = none) :
    firstFrom d (level + 1) = firstFrom d level := by
  rw [firstFrom, firstFound, missing]
  rfl

section Found

variable {level : ℕ} {n : Decimal} (sign : d.isNegative = false) (finite : d.isFinite = true)
include sign finite

/-- The last point that is not above is found if it reads back, and the next one does not or is
farther. -/
theorem nearestReadBack_below (readBack : (below d level).toDouble = d)
    (before : (above d level).toDouble = d →
      2 * d.value ≤ (below d level).value + (above d level).value) :
    NearestReadBack d level (below d level) := by
  have low := value_below_le sign level
  refine ⟨⟨_, rfl⟩, readBack, fun count reads => ?_⟩
  rw [abs_of_nonneg (sub_nonneg.2 low)]
  rcases below_or_above sign finite reads with ⟨le, -⟩ | ⟨le, readBack'⟩
  · exact (sub_le_sub_left le _).trans (le_abs_self _)
  · have half := before readBack'
    have far := neg_le_abs (d.value - (onGrid level count).value)
    linarith

/-- The next one is found if it reads back, and the last one that is not above does not or is no
nearer. -/
theorem nearestReadBack_above (readBack : (above d level).toDouble = d)
    (past : (below d level).toDouble = d →
      (below d level).value + (above d level).value ≤ 2 * d.value) :
    NearestReadBack d level (above d level) := by
  have high := le_value_above sign level
  refine ⟨⟨_, rfl⟩, readBack, fun count reads => ?_⟩
  rw [abs_of_nonpos (sub_nonpos.2 high)]
  rcases below_or_above sign finite reads with ⟨le, readBack'⟩ | ⟨le, -⟩
  · have half := past readBack'
    have far := le_abs_self (d.value - (onGrid level count).value)
    linarith
  · exact (neg_le_neg (sub_le_sub_left le _)).trans (neg_le_abs _)

/-- **One grid.** What is found on a grid reads back, and no point of the grid that does is
nearer. -/
theorem nearestReadBack_of_eq_some (h : nearestOnGrid? d level = some n) :
    NearestReadBack d level n := by
  have half := half_le_value_iff sign level
  rw [nearestOnGrid?_eq] at h
  split at h
  case isTrue low =>
    split at h
    case isTrue both =>
      obtain rfl := Option.some.inj h
      exact nearestReadBack_above sign finite both.1 fun _ => half.2 both.2
    case isFalse notBoth =>
      obtain rfl := Option.some.inj h
      refine nearestReadBack_below sign finite low fun high => (not_le.1 fun past => ?_).le
      exact notBoth ⟨high, half.1 past⟩
  case isFalse notLow =>
    split at h
    case isTrue high =>
      obtain rfl := Option.some.inj h
      exact nearestReadBack_above sign finite high fun low => absurd low notLow
    case isFalse => exact nomatch h

/-- If nothing is found on a grid, no point of it reads back. -/
theorem toDouble_ne_of_eq_none (h : nearestOnGrid? d level = none) (count : ℕ) :
    (onGrid level count).toDouble ≠ d := by
  intro reads
  rw [nearestOnGrid?_eq] at h
  rcases below_or_above sign finite reads with ⟨-, low⟩ | ⟨-, high⟩
  · rw [if_pos low] at h
    split at h <;> exact nomatch h
  · rw [if_pos high] at h
    split at h
    · split at h <;> exact nomatch h
    · exact nomatch h

/-- On the finest grid, the double itself is a point. -/
theorem nearestReadBack_finest : NearestReadBack d 0 (onGrid 0 (finestSteps d)) := by
  have exact : (onGrid 0 (finestSteps d)).value = d.value := by
    rw [value_onGrid, value_eq_finestSteps sign, Nat.pow_zero, Nat.mul_one]
  have near := (onGrid 0 (finestSteps d)).nearest_toDouble
  rw [exact] at near
  refine ⟨⟨_, rfl⟩, near.unique (Double.nearest_value sign finite), fun count _ => ?_⟩
  rw [exact, sub_self, abs_zero]
  exact abs_nonneg _

-- ── The search ──────────────────────

/-- **The search.** It ends on the coarsest grid that has a point that reads back, among those it
looks at. -/
theorem exists_firstFrom (most : ℕ) :
    ∃ level ≤ most, NearestReadBack d level (firstFrom d most) ∧
      ∀ coarser ≤ most, level < coarser → ∀ count,
        (onGrid coarser count).toDouble ≠ d := by
  induction most with
  | zero =>
      refine ⟨0, le_rfl, nearestReadBack_finest sign finite, fun coarser coarsest less => ?_⟩
      exact absurd less (Nat.not_lt.2 coarsest)
  | succ most ih =>
      cases found : nearestOnGrid? d (most + 1) with
      | some n =>
          refine ⟨most + 1, le_rfl, ?_, fun coarser le less => absurd less (Nat.not_lt.2 le)⟩
          rw [firstFrom_of_eq_some found]
          exact nearestReadBack_of_eq_some sign finite found
      | none =>
          obtain ⟨level, le, readBack, coarser⟩ := ih
          refine ⟨level, Nat.le_succ_of_le le, ?_, fun k within less => ?_⟩
          · rw [firstFrom_of_eq_none found]
            exact readBack
          · rcases Nat.of_le_succ within with within | rfl
            · exact coarser k within less
            · exact toDouble_ne_of_eq_none sign finite found

/-- No point of a grid with steps of more than twice a double reads back. -/
theorem toDouble_ne_of_coarse (nonzero : d.units ≠ 0) {level : ℕ}
    (coarse : 2 * finestSteps d ≤ 10 ^ level)
    (count : ℕ) : (onGrid level count).toDouble ≠ d := by
  intro equal
  have near := (onGrid level count).nearest_toDouble
  rw [equal] at near
  have rung := near.nearestRung finite
  rw [Double.units_eq_rung] at nonzero
  rcases Nat.eq_zero_or_pos count with rfl | positive
  · -- Zero is read as zero.
    have zero := nearestRung_self Double.rungValue_strictMono 0
    rw [Double.rungValue_zero] at zero
    have value : (onGrid level 0).value = 0 := by
      rw [value_onGrid, Nat.zero_mul, Nat.cast_zero, zero_div]
    rw [value] at rung
    rw [rung.unique Double.rungValue_strictMono zero] at nonzero
    exact nonzero (Double.rung_of_lt Double.fractions_pos)
  · -- Any other point is not below the double after this one.
    have next : Double.rungValue (d.magnitude + 1) ≤ (onGrid level count).value := by
      refine (Double.rungValue_succ_le nonzero).trans ?_
      rw [← Double.value_of_not_negative sign, value_eq_finestSteps sign, value_onGrid,
        ← mul_div_assoc, div_le_div_iff_of_pos_right finestScale_pos]
      exact_mod_cast coarse.trans (Nat.le_mul_of_pos_left _ positive)
    have above := (nearestRung_self Double.rungValue_strictMono (d.magnitude + 1)).le_of_le
      Double.rungValue_strictMono rung next
    exact absurd above (Nat.not_succ_le_self _)

end Found

/-- The search begins on a grid past the leading digit. -/
theorem finestSteps_lt (d : Double) : finestSteps d <
    10 ^ (finestPlaces + (Nat.toDigits 10 (d.units / Double.unitsPerOne)).length) := by
  have digits :
    d.units / Double.unitsPerOne < 10 ^ (Nat.toDigits 10 (d.units / Double.unitsPerOne)).length :=
    (Nat.length_toDigits_le_iff (by decide) Nat.length_toDigits_pos).1 le_rfl
  generalize (Nat.toDigits 10 (d.units / Double.unitsPerOne)).length = length at *
  rw [Nat.div_lt_iff_lt_mul Double.unitsPerOne_pos] at digits
  revert digits
  unfold finestSteps Double.unitsPerOne finestPlaces
  generalize 1074 = finest
  intro digits
  have ten : 10 ^ finest = 2 ^ finest * 5 ^ finest := by
    rw [← Nat.mul_pow]
  rw [Nat.pow_eq] at *
  rw [Nat.pow_add, ten, Nat.mul_comm _ (10 ^ length), ← Nat.mul_assoc]
  exact Nat.mul_lt_mul_of_pos_right digits (Nat.pow_pos (by decide))

theorem shortest_of_units_eq_zero (zero : d.units = 0) : shortest d = ⟨0, 0⟩ :=
  if_pos zero

section Shortest

variable (sign : d.isNegative = false) (finite : d.isFinite = true)
include sign finite

/-- **The shortest numeral.** It is on the coarsest of all grids that have a point that reads back,
and is the nearest such point of it. -/
theorem exists_shortest (nonzero : d.units ≠ 0) :
    ∃ level, NearestReadBack d level (shortest d) ∧
      ∀ coarser > level, ∀ count, (onGrid coarser count).toDouble ≠ d := by
  obtain ⟨level, -, readBack, coarser⟩ := exists_firstFrom sign finite
    (finestPlaces + (Nat.toDigits 10 (d.units / Double.unitsPerOne)).length)
  have small := finestSteps_lt d
  have found : shortest d = firstFrom d _ := if_neg nonzero
  generalize finestPlaces + (Nat.toDigits 10 (d.units / Double.unitsPerOne)).length = most at *
  rw [found]
  refine ⟨level, readBack, fun k less => ?_⟩
  rcases Nat.lt_or_ge most k with past | within
  · refine toDouble_ne_of_coarse sign finite nonzero ?_
    have wide : 10 ^ (most + 1) ≤ 10 ^ k := Nat.pow_le_pow_right (by decide) past
    rw [Nat.pow_succ] at wide
    omega
  · exact coarser k within less

/-- **Reading back.** -/
theorem toDouble_shortest : (shortest d).toDouble = d := by
  by_cases zero : d.units = 0
  · have value : (⟨0, 0⟩ : Decimal).value = d.value := by
      rw [Decimal.value, Double.value_of_not_negative sign, Double.rungValue,
        ← Double.units_eq_rung, zero, Nat.cast_zero, zero_div, zero_div]
    have near := (⟨0, 0⟩ : Decimal).nearest_toDouble
    rw [value] at near
    rw [shortest_of_units_eq_zero zero, near.unique (Double.nearest_value sign finite)]
  · obtain ⟨level, readBack, -⟩ := exists_shortest sign finite zero
    exact readBack.readBack

/-- No more places are needed than the finest grid has. -/
theorem places_shortest_le : (shortest d).places ≤ finestPlaces := by
  by_cases zero : d.units = 0
  · rw [shortest_of_units_eq_zero zero]
    exact Nat.zero_le _
  · obtain ⟨level, readBack, -⟩ := exists_shortest sign finite zero
    obtain ⟨count, grid⟩ := readBack.grid
    rw [grid]
    exact Nat.sub_le ..

/-- **Fewest places.** No numeral that reads back has fewer of them. -/
theorem places_shortest_le_of_toDouble {n : Decimal} (readBack : n.toDouble = d) :
    (shortest d).places ≤ n.places := by
  by_contra fewer
  have most := places_shortest_le sign finite
  by_cases zero : d.units = 0
  · rw [shortest_of_units_eq_zero zero] at fewer
    exact fewer (Nat.zero_le _)
  · obtain ⟨level, nearest, coarser⟩ := exists_shortest sign finite zero
    obtain ⟨count, grid⟩ := nearest.grid
    have places : (shortest d).places = finestPlaces - level := congrArg Decimal.places grid
    have regridded : onGrid (finestPlaces - n.places) n.coefficient = n := by
      rw [onGrid, Nat.sub_sub_self (by omega), Nat.sub_eq_zero_of_le (Nat.sub_le ..)]
      simp
    exact coarser (finestPlaces - n.places) (by omega) n.coefficient (regridded.symm ▸ readBack)

end Shortest

end LoxScan.Decimal
