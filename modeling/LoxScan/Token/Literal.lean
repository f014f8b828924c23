import LoxScan.Number.Decimal

/-!
# Literal values

The value that a string or number token carries. A token of any other kind carries none, so a
token holds an `Option Literal`.
-/

namespace LoxScan

/-- A decoded value: the text between the quotes of a string, as it stands, or a number. -/
inductive Literal
  | string (text : String)
  | number (value : Double)
deriving DecidableEq

namespace Literal

/-- The text of a literal: a string as it is, a number by its shortest numeral. -/
def text : Literal → String
  | string s => s
  | number d => d.text

/-- The number, if the literal is one. -/
def number? : Literal → Option Double
  | string _ => none
  | number d => some d

end Literal

end LoxScan
