/-!
# Double-precision numbers

A `Double` is its 64 bits. Everything about it is said in exact natural numbers: every finite double
is a multiple of the smallest positive one, `2 ^ (-1074)`, and `Double.units` is that multiple.

`Double.ofRatio` rounds an exact non-negative quotient to the nearest double. It counts the quotient
in the same units, drops the low binary digits that fifty-three places cannot hold, and rounds what
is left half to even. Because consecutive doubles have consecutive bits, the number of dropped
digits and the rounded count simply add up to the bits, also when rounding carries into the next
power of two; and a count that is too large lands at or past the bits of infinity, where it is cut
off.

* **`ofMagnitude_magnitude`**: a double without its sign is read off 63 bits.
-/

namespace LoxScan

-- ── Rounding a quotient ─────────────

/-- The whole number nearest to `num / den`; of two equally near ones, the even one. -/
def roundHalfEven (num den : Nat) : Nat :=
  let quotient := num / den
  let rest := num % den
  if 2 * rest < den then quotient
  else if den < 2 * rest then quotient + 1
  else quotient + quotient % 2

-- ── Doubles ─────────────────────────

/-- A double-precision number in its interchange format: a sign bit, eleven exponent bits and
fifty-two fraction bits. -/
structure Double where
  bits : UInt64
deriving DecidableEq

namespace Double

/-- There are this many units in one. -/
def unitsPerOne : Nat := Nat.pow 2 1074

/-- There are this many fractions, and so this many doubles of one sign and exponent. -/
def fractions : Nat := Nat.pow 2 52

/-- The weight of the sign bit. -/
def signWeight : Nat := Nat.pow 2 63

/-- The bits of positive infinity: the largest exponent and no fraction. -/
def infinityBits : Nat := 2047 * fractions

/-- Whether the sign bit is set, as it also is on negative zero. -/
def isNegative (d : Double) : Bool :=
  decide (signWeight ≤ d.bits.toNat)

/-- The bits without the sign. -/
def magnitude (d : Double) : Nat :=
  d.bits.toNat % signWeight

/-- The non-negative double with given bits. -/
def ofMagnitude (n : Nat) : Double :=
  ⟨UInt64.ofNat n⟩

/-- A NaN has bits past those of infinity. -/
def isNaN (d : Double) : Bool :=
  decide (infinityBits < d.magnitude)

/-- An infinity of either sign. -/
def isInfinite (d : Double) : Bool :=
  d.magnitude == infinityBits

/-- A finite double is neither infinite nor a NaN. -/
def isFinite (d : Double) : Bool :=
  decide (d.magnitude < infinityBits)

/-- The double without its sign. -/
def abs (d : Double) : Double :=
  ofMagnitude d.magnitude

/-- The size of a finite double in units of the smallest positive one. Below the first power of two
with a full set of fraction bits, the bits count the units; above it, each exponent doubles them. -/
def units (d : Double) : Nat :=
  let exponent := d.magnitude / fractions
  let fraction := d.magnitude % fractions
  if exponent = 0 then fraction else (fractions + fraction) * Nat.pow 2 (exponent - 1)

/-- The double nearest to the exact quotient `num / den`, ties to even, infinity from half a step
past the largest finite double on. -/
def ofRatio (num den : Nat) : Double :=
  let scaled := num * unitsPerOne
  let dropped := (scaled / den).log2 - 52
  let rounded := roundHalfEven scaled (den * Nat.pow 2 dropped)
  ofMagnitude (min infinityBits (dropped * fractions + rounded))

@[simp] theorem magnitude_ofMagnitude {n : Nat} (h : n < signWeight) :
    (ofMagnitude n).magnitude = n := by
  have wide : n < UInt64.size := Nat.lt_trans h (by decide)
  show (UInt64.ofNat n).toNat % signWeight = n
  rw [UInt64.toNat_ofNat_of_lt' wide, Nat.mod_eq_of_lt h]

/-- A double without a sign is made of its magnitude. -/
theorem ofMagnitude_magnitude {d : Double} (h : d.isNegative = false) :
    ofMagnitude d.magnitude = d := by
  have small : d.bits.toNat < signWeight := by simpa [isNegative] using h
  cases d with
  | mk bits =>
    simp only [ofMagnitude, magnitude]
    rw [Nat.mod_eq_of_lt small, UInt64.ofNat_toNat]

end Double

end LoxScan
