import LoxScan.Text.Utf8

/-!
# Positions in a source text

A position is what must be known at a point of the text to say where it is: the byte offset, the
line counted from one, and the offset at which that line begins. Reading a character moves it on by
the character's encoded length, and a line feed begins a new line. All three counts are exact; they
are cut off to words only where a token or a fault is built from them.

* **`advance_append`**: a position depends on the text before it alone, however it was cut up.
* **`lineStart_le_offset`**: from the start of a text on, no line begins after the point it is the
  line of, so a column is a true distance.
-/

namespace LoxScan

open Utf8

/-- A point of a text. -/
structure Position where
  offset : Nat
  line : Nat
  lineStart : Nat
deriving DecidableEq

namespace Position

/-- The point before the first character. -/
def origin : Position :=
  ⟨0, 1, 0⟩

/-- The point after one more character. -/
def next (p : Position) (c : Char) : Position :=
  if c = '\n' then ⟨p.offset + 1, p.line + 1, p.offset + 1⟩
  else ⟨p.offset + c.utf8Size, p.line, p.lineStart⟩

/-- The point after a text. -/
def advance (p : Position) (text : List Char) : Position :=
  text.foldl next p

/-- The column, counted in bytes from one. -/
def column (p : Position) : Nat :=
  p.offset - p.lineStart + 1

@[simp] theorem advance_nil (p : Position) : p.advance [] = p :=
  rfl

@[simp] theorem advance_cons (p : Position) (c : Char) (text : List Char) :
    p.advance (c :: text) = (p.next c).advance text :=
  rfl

/-- A position depends on the text before it and not on how it was cut up. -/
theorem advance_append (p : Position) (a b : List Char) :
    p.advance (a ++ b) = (p.advance a).advance b :=
  List.foldl_append ..

@[simp] theorem offset_next (p : Position) (c : Char) :
    (p.next c).offset = p.offset + c.utf8Size := by
  rw [next]
  split
  case isTrue h => subst h; rfl
  case isFalse => rfl

theorem offset_advance (p : Position) (text : List Char) :
    (p.advance text).offset = p.offset + byteLength text := by
  induction text generalizing p with
  | nil => rfl
  | cons c text ih =>
      rw [advance_cons, ih, offset_next, byteLength_cons, Nat.add_assoc]

theorem lineStart_le_offset_next {p : Position} (h : p.lineStart ≤ p.offset) (c : Char) :
    (p.next c).lineStart ≤ (p.next c).offset := by
  rw [next]
  split
  case isTrue => exact Nat.le_refl _
  case isFalse => exact Nat.le_trans h (Nat.le_add_right ..)

theorem lineStart_le_offset {p : Position} (h : p.lineStart ≤ p.offset) (text : List Char) :
    (p.advance text).lineStart ≤ (p.advance text).offset := by
  induction text generalizing p with
  | nil => exact h
  | cons c text ih => exact ih (lineStart_le_offset_next h c)

end Position

end LoxScan
