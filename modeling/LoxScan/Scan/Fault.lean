import LoxScan.Diagnostic.Basic

/-!
# Lexical faults

Two things can be wrong with a text: a character that begins no element, and a string that the input
ends before it is closed. A fault is never part of the token sequence. It is placed where it was
noticed (a character at itself, an open string at the end of the input) while its span covers all
the text that was given up, and it is told to reporters as a diagnostic without a location.
-/

namespace LoxScan

/-- What is wrong. -/
inductive Fault.Cause
  | unexpectedCharacter (found : Char)
  | unterminatedString
deriving DecidableEq

namespace Fault.Cause

/-- The message of a cause. It does not show the character. -/
def message : Fault.Cause → String
  | unexpectedCharacter _ => "Unexpected character"
  | unterminatedString => "Unterminated string"

/-- The code of a cause. -/
def code : Fault.Cause → Code
  | unexpectedCharacter _ => .unexpectedCharacter
  | unterminatedString => .unterminatedString

end Fault.Cause

/-- A cause, the line and column where it was noticed, and the text that was given up. -/
structure Fault where
  cause : Fault.Cause
  line : Word
  column : Word
  span : Span
deriving DecidableEq

namespace Fault

/-- The text of a fault in the log. -/
def text (f : Fault) : String :=
  "[line " ++ Nat.repr f.line.toNat ++ ":" ++ Nat.repr f.column.toNat ++ "] " ++ f.cause.message

/-- What reporters are told of a fault. -/
def toDiagnostic (f : Fault) : Diagnostic where
  line := f.line
  column := some f.column
  message := f.cause.message
  code := some f.cause.code
  span := some f.span

@[simp] theorem position_toDiagnostic (f : Fault) :
    f.toDiagnostic.position = (f.line.toNat, f.column.toNat) :=
  rfl

end Fault

end LoxScan
