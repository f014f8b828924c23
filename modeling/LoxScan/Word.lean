/-!
# Saturating words

Byte offsets, lines and columns are kept in 32 bits. A text that is too long for them is still
scanned to its end: every count past the largest word is held as the largest word, and nothing
wraps.

* **`toNat_saturate`**: the word of a count is the count, cut off at `Word.largest`. So below that
  bound a word *is* its count (`toNat_saturate_of_le`), and two counts with one word can differ only
  at or past it.
* **`saturate_toNat`**: a word that is read as a count and written back is unchanged.
* **`plus_saturate`**: counting on from a word that was cut off gives what cutting off the whole
  count gives, so it does not matter whether a count is kept as a word all along or made one at the
  end.
-/

namespace LoxScan

/-- A byte offset, line or column. -/
abbrev Word := UInt32

namespace Word

/-- The count at which words saturate. -/
def largest : Nat := 4294967295

/-- The word that holds a count: the largest word for all counts from `largest` on. -/
def saturate (n : Nat) : Word :=
  UInt32.ofNatLT (min n largest) (Nat.lt_of_le_of_lt (Nat.min_le_right n largest) (by decide))

/-- The word of a count is the count, cut off at the largest word. -/
@[simp] theorem toNat_saturate (n : Nat) : (saturate n).toNat = min n largest := by
  simp [saturate]

theorem toNat_saturate_le (n : Nat) : (saturate n).toNat ≤ n := by
  rw [toNat_saturate]
  exact Nat.min_le_left ..

theorem toNat_saturate_of_le {n : Nat} (h : n ≤ largest) : (saturate n).toNat = n := by
  rw [toNat_saturate]
  exact Nat.min_eq_left h

theorem toNat_le_largest (w : Word) : w.toNat ≤ largest :=
  Nat.le_of_lt_succ w.toNat_lt

/-- A word that is read as a count and written back is unchanged. -/
@[simp] theorem saturate_toNat (w : Word) : saturate w.toNat = w := by
  apply UInt32.toNat_inj.1
  rw [toNat_saturate]
  exact Nat.min_eq_left (toNat_le_largest w)

/-- A word and a count, cut off at the largest word. Where there is room nothing is cut off
(`toNat_plus_of_le`). -/
def plus (w : Word) (n : Nat) : Word :=
  saturate (w.toNat + n)

theorem toNat_plus_of_le {w : Word} {n : Nat} (h : w.toNat + n ≤ largest) :
    (w.plus n).toNat = w.toNat + n :=
  toNat_saturate_of_le h

/-- Cutting off early or late makes no difference. -/
theorem plus_saturate (k n : Nat) : (saturate k).plus n = saturate (n + k) := by
  apply UInt32.toNat_inj.1
  rw [plus, toNat_saturate, toNat_saturate, toNat_saturate]
  omega

end Word

end LoxScan
