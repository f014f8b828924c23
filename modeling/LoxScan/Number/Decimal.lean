import LoxScan.Number.Double

/-!
# Decimal numerals

A `Decimal` is a numeral as it is written: a whole number of steps and the number of places after
the point, so it denotes `coefficient / 10 ^ places` exactly. Numerals are read from digits, rounded
to a double, and written positionally, with a point only if a place follows it and never with an
exponent.

The shortest numeral of a double is found on decimal grids. Every finite double is a whole number of
steps of the finest grid, `10 ^ (-1074)`. From the coarsest grid that can matter down to that one,
the two grid points next to the exact value are read back; the first grid on which one of them gives
the double again has the fewest digits, and of two such points the nearer wins, the upper one on a
tie. The search needs no bound of its own: on the finest grid the point *is* the value.

* **`length_padded`**, **`wholeDigits_ne_nil`**: there is always a digit before the point.
-/

namespace LoxScan

/-- The numeral that denotes `coefficient / 10 ^ places`. -/
structure Decimal where
  coefficient : Nat
  places : Nat
deriving DecidableEq

namespace Decimal

-- ── Reading ─────────────────────────

/-- The value of one decimal digit. -/
def digitValue (c : Char) : Nat :=
  c.toNat - '0'.toNat

/-- The value of a row of digits, the most significant first. -/
def valueOfDigits (digits : List Char) : Nat :=
  digits.foldl (fun value c => 10 * value + digitValue c) 0

/-- The numeral with the given digits before and after the point. -/
def ofDigits (whole fraction : List Char) : Decimal :=
  ⟨valueOfDigits (whole ++ fraction), fraction.length⟩

/-- The double nearest to a numeral. -/
def toDouble (n : Decimal) : Double :=
  Double.ofRatio n.coefficient (Nat.pow 10 n.places)

@[simp] theorem valueOfDigits_nil : valueOfDigits [] = 0 :=
  rfl

/-- One more digit at the back multiplies by ten and adds the digit. -/
theorem valueOfDigits_append_singleton (digits : List Char) (c : Char) :
    valueOfDigits (digits ++ [c]) = 10 * valueOfDigits digits + digitValue c := by
  simp [valueOfDigits]

-- ── Writing ─────────────────────────

/-- The coefficient's digits, with zeros in front until a digit stands before the point. -/
def padded (n : Decimal) : List Char :=
  let digits := Nat.toDigits 10 n.coefficient
  List.replicate (n.places + 1 - digits.length) '0' ++ digits

/-- The digits before the point. -/
def wholeDigits (n : Decimal) : List Char :=
  n.padded.take (n.padded.length - n.places)

/-- The digits after the point. -/
def fractionDigits (n : Decimal) : List Char :=
  n.padded.drop (n.padded.length - n.places)

/-- The positional text of a numeral. -/
def text (n : Decimal) : String :=
  if n.places = 0 then String.ofList n.wholeDigits
  else String.ofList (n.wholeDigits ++ '.' :: n.fractionDigits)

/-- The point cuts the padded digits in two and loses none. -/
theorem wholeDigits_append_fractionDigits (n : Decimal) :
    n.wholeDigits ++ n.fractionDigits = n.padded :=
  List.take_append_drop ..

theorem length_padded (n : Decimal) : n.places < n.padded.length := by
  simp only [padded, List.length_append, List.length_replicate]
  omega

theorem length_fractionDigits (n : Decimal) : n.fractionDigits.length = n.places := by
  have := n.length_padded
  simp only [fractionDigits, List.length_drop]
  omega

theorem wholeDigits_ne_nil (n : Decimal) : n.wholeDigits ≠ [] := by
  have := n.length_padded
  intro h
  have := congrArg List.length h
  simp only [wholeDigits, List.length_take, List.length_nil] at this
  omega

-- ── The shortest numeral of a double ──

/-- The places of the finest grid, on which every finite double lies. -/
def finestPlaces : Nat := 1074

/-- The numeral at `count` steps of the grid that is `level` powers of ten coarser than the
finest. -/
def onGrid (level count : Nat) : Decimal :=
  ⟨count * Nat.pow 10 (level - finestPlaces), finestPlaces - level⟩

/-- The value of a finite double in steps of the finest grid. -/
def finestSteps (d : Double) : Nat :=
  d.units * Nat.pow 5 finestPlaces

/-- The point of a grid that reads back as `d` and is nearest to it, the upper one on a tie. Only
the two points next to the value are candidates: if any point reads back, one of them does. -/
def nearestOnGrid? (d : Double) (level : Nat) : Option Decimal :=
  let step := Nat.pow 10 level
  let count := finestSteps d / step
  let lower := onGrid level count
  let upper := onGrid level (count + 1)
  if lower.toDouble = d then
    if upper.toDouble = d ∧ step ≤ 2 * (finestSteps d % step) then some upper else some lower
  else if upper.toDouble = d then some upper
  else none

/-- The first numeral that a search on grids finds, from a grid down to finer ones. The last resort
is on the finest. -/
def firstFound (search : Nat → Option Decimal) (last : Decimal) : Nat → Decimal
  | 0 => last
  | level + 1 =>
    match search (level + 1) with
    | some n => n
    | none => firstFound search last level

/-- The first numeral that reads back, from a grid down to finer ones. -/
def firstFrom (d : Double) (level : Nat) : Decimal :=
  firstFound (nearestOnGrid? d) (onGrid 0 (finestSteps d)) level

/-- The numeral of a finite, non-negative double with the fewest digits that read back. No coarser
grid than one step past the leading digit can hold a point that reads back. -/
def shortest (d : Double) : Decimal :=
  if d.units = 0 then ⟨0, 0⟩
  else firstFrom d (finestPlaces + (Nat.toDigits 10 (d.units / Double.unitsPerOne)).length)

end Decimal

-- ── Displayed numbers ───────────────

/-- The text of a number: its shortest numeral with a minus sign in front if the sign bit is set,
and words for what is not finite. -/
def Double.text (d : Double) : String :=
  if d.isNaN then "NaN"
  else
    let size := if d.isInfinite then "inf" else (Decimal.shortest d.abs).text
    if d.isNegative then "-" ++ size else size

end LoxScan
