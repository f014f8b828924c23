import LoxScan.Span
import LoxScan.Token.Kind
import LoxScan.Token.Literal

/-!
# Tokens

A token is a kind, the exact text it was read from, the value of a string or number, the line on
which it starts and its byte range. Kind and value have to go together, or there is no such token.

* **`Kind.carries_iff`**: a kind goes together with a value exactly if it is that of a string or
  number.
-/

namespace LoxScan

/-- A kind and a value go together if there is one exactly if the kind has one. -/
def Kind.Carries (kind : Kind) (literal : Option Literal) : Prop :=
  kind.hasLiteral = literal.isSome

instance (kind : Kind) (literal : Option Literal) : Decidable (kind.Carries literal) :=
  inferInstanceAs (Decidable (_ = _))

/-- Strings and numbers carry a value, and no other kind does. -/
theorem Kind.carries_iff {kind : Kind} {literal : Option Literal} :
    kind.Carries literal ↔ (literal.isSome = true ↔ kind = .string ∨ kind = .number) := by
  cases kind <;> cases literal <;> simp [Carries, hasLiteral]

/-- Words carry no value. -/
theorem Kind.carries_ofWord (letters : String) : (Kind.ofWord letters).Carries none := by
  rcases Kind.ofWord_cases letters with ⟨k, word⟩ | word
  · rw [word]
    rfl
  · rw [word]
    rfl

/-- A classified piece of source. -/
structure Token where
  kind : Kind
  lexeme : String
  literal : Option Literal
  line : Word
  span : Span
deriving DecidableEq

namespace Token

/-- The token at the end of the input: no text and no value. -/
def eof (line offset : Word) : Token :=
  ⟨.eof, "", none, line, Span.point offset⟩

/-- Whether a token marks the end of the input. -/
def isEof (t : Token) : Bool :=
  t.kind == .eof

/-- A token in a dump: its kind and its text, with a blank between them. -/
def brief (t : Token) : String :=
  t.kind.name ++ " " ++ t.lexeme

/-- A token in a dump with values: its value follows, after another blank, if it has one. -/
def text (t : Token) : String :=
  match t.literal with
  | none => t.brief
  | some literal => t.brief ++ " " ++ literal.text

@[simp] theorem isEof_eof (line offset : Word) : (eof line offset).isEof = true :=
  rfl

end Token

end LoxScan
