import LoxScan.Span

/-!
# Diagnostics

A diagnostic is what a reporter is told: a message at a line, with a column, a place in the program,
a stable code and a byte range where they are known. Its position, the line and then the column, is
the order in which diagnostics are shown; an unknown column comes before every known one.

* **`positionLE_iff`**: the order of positions is lexicographic.
* **`positionLE_trans`**, **`positionLE_total`**: it is a total preorder, so a stable sort by it is
  determined.
-/

namespace LoxScan

/-- The stable codes of lexical faults. -/
inductive Code
  | unterminatedString
  | unexpectedCharacter
deriving DecidableEq

namespace Code

/-- The text of a code. -/
def text : Code → String
  | unterminatedString => "E0001"
  | unexpectedCharacter => "E0002"

end Code

/-- A reported problem. The location is the place in the program, such as ` at 'foo'`, and empty
where there is none. -/
structure Diagnostic where
  line : Word
  column : Option Word := none
  location : String := ""
  message : String
  code : Option Code := none
  span : Option Span := none
deriving DecidableEq

namespace Diagnostic

-- ── Text ────────────────────────────

/-- The bracketed position: the line, and the column if it is known. -/
def positionText (d : Diagnostic) : String :=
  match d.column with
  | some column => "[line " ++ Nat.repr d.line.toNat ++ ":" ++ Nat.repr column.toNat ++ "]"
  | none => "[line " ++ Nat.repr d.line.toNat ++ "]"

/-- What follows the word for an error: location, colon and message. -/
def explanation (d : Diagnostic) : String :=
  d.location ++ ": " ++ d.message

/-- The text of a diagnostic. It does not show the code. -/
def text (d : Diagnostic) : String :=
  d.positionText ++ " Error" ++ d.explanation

-- ── Position ────────────────────────

/-- The column, or zero when it is unknown. -/
def columnOrZero (d : Diagnostic) : Nat :=
  (d.column.map UInt32.toNat).getD 0

/-- The sort key: the line, then the column or zero. -/
def position (d : Diagnostic) : Nat × Nat :=
  (d.line.toNat, d.columnOrZero)

/-- Whether a diagnostic may be shown before another: its position is no later. -/
def positionLE (a b : Diagnostic) : Bool :=
  decide (a.position.1 < b.position.1) ||
    (a.position.1 == b.position.1 && decide (a.position.2 ≤ b.position.2))

/-- Positions are compared by line, and by column on the same line. -/
theorem positionLE_iff {a b : Diagnostic} :
    positionLE a b = true ↔
      a.position.1 < b.position.1 ∨ a.position.1 = b.position.1 ∧
        a.position.2 ≤ b.position.2 := by
  simp [positionLE]

theorem positionLE_trans {a b c : Diagnostic} (hab : positionLE a b = true)
    (hbc : positionLE b c = true) : positionLE a c = true := by
  rw [positionLE_iff] at hab hbc ⊢
  omega

theorem positionLE_total (a b : Diagnostic) : (positionLE a b || positionLE b a) = true := by
  rw [Bool.or_eq_true, positionLE_iff, positionLE_iff]
  omega

end Diagnostic

end LoxScan
