import LoxScan.Scan.Element
import LoxScan.Scan.Fault
import LoxScan.Scan.Position
import LoxScan.Token.Basic

/-!
# Scanning a source text

A scan lays the elements of a text along their positions and keeps what is to be known of each: a
token for a punctuator, string, number or word, a fault for a malformed element, nothing for a
comment or a blank. Tokens and faults stay in one list, in source order, because the log shows them
in that order; `Scan.tokens` and `Scan.faults` are its two halves, and the tokens always end in the
one that marks the end of the input.

A scan of a text is a function of the text alone. It never fails, and no fault stops it.

* **`Placed.lay_append`**: elements are laid end to end, so where one stands depends on the text
  before it alone.
* **`getLast?_tokens`**: the last token is the one that marks the end of the input.
* **`length_findings`**: what is found is a token or a fault and never both, so the tokens without
  that last one and the faults together are as many as the findings.
-/

namespace LoxScan

-- ── Placing elements ────────────────

/-- An element and the position at which it starts. -/
structure Placed where
  element : Element
  start : Position

namespace Placed

/-- Lays elements one after another, from a position on. -/
def lay : Position → List Element → List Placed
  | _, [] => []
  | p, e :: rest => ⟨e, p⟩ :: lay (p.advance e.text) rest

/-- The position after an element. -/
def stop (p : Placed) : Position :=
  p.start.advance p.element.text

/-- The byte range of an element. -/
def span (p : Placed) : Span :=
  Span.ofRange p.start.offset p.stop.offset

/-- The token of an element: its text, on the line where it starts. -/
def token (p : Placed) (kind : Kind) (literal : Option Literal) : Token :=
  ⟨kind, String.ofList p.element.text, literal, Word.saturate p.start.line, p.span⟩

/-- The fault of an element, noticed at a given position. -/
def fault (p : Placed) (cause : Fault.Cause) (noticed : Position) : Fault :=
  ⟨cause, Word.saturate noticed.line, Word.saturate noticed.column, p.span⟩

@[simp] theorem lay_nil (p : Position) : lay p [] = [] :=
  rfl

@[simp] theorem lay_cons (p : Position) (e : Element) (rest : List Element) :
    lay p (e :: rest) = ⟨e, p⟩ :: lay (p.advance e.text) rest :=
  rfl

@[simp] theorem map_element_lay (p : Position) (es : List Element) :
    (lay p es).map element = es := by
  induction es generalizing p with
  | nil => rfl
  | cons e es ih =>
      rw [lay_cons, List.map_cons, ih]

/-- Later elements are laid from where the text of the earlier ones ends. -/
theorem lay_append (p : Position) (es fs : List Element) :
    lay p (es ++ fs) = lay p es ++ lay (p.advance (es.flatMap Element.text)) fs := by
  induction es generalizing p with
  | nil => rfl
  | cons e es ih =>
      rw [List.cons_append, lay_cons, lay_cons, ih, List.flatMap_cons, Position.advance_append]
      rfl

end Placed

-- ── What a scan finds ───────────────

/-- A token or a fault. -/
inductive Finding
  | token (t : Token)
  | fault (f : Fault)
deriving DecidableEq

namespace Finding

/-- The token, if the finding is one. -/
def token? : Finding → Option Token
  | token t => some t
  | fault _ => none

/-- The fault, if the finding is one. -/
def fault? : Finding → Option Fault
  | token _ => none
  | fault f => some f

/-- The byte range of a finding. -/
def span : Finding → Span
  | token t => t.span
  | fault f => f.span

/-- What is found in a placed element. A string that is never closed is noticed where the input
ends, any other fault where its element starts. -/
def ofPlaced? (p : Placed) : Option Finding :=
  match p.element with
  | .punctuator q => some (token (p.token (.punctuator q) none))
  | .string body => some (token (p.token .string (some (.string (String.ofList body)))))
  | .number whole fraction =>
    some (token (p.token .number (some (.number (Decimal.ofDigits whole fraction).toDouble))))
  | .word letters => some (token (p.token (Kind.ofWord (String.ofList letters)) none))
  | .comment _ => none
  | .blank _ => none
  | .openString _ => some (fault (p.fault .unterminatedString p.stop))
  | .stray c => some (fault (p.fault (.unexpectedCharacter c) p.start))

end Finding

-- ── Scans ───────────────────────────

/-- What was found in a text, in source order, and the position of its end. -/
structure Scan where
  findings : List Finding
  finish : Position

namespace Scan

/-- The scan of a row of characters. -/
def ofList (text : List Char) : Scan :=
  ⟨(Placed.lay .origin (Element.tile text)).filterMap Finding.ofPlaced?,
    Position.origin.advance text⟩

/-- The scan of a source text. -/
def ofString (source : String) : Scan :=
  ofList source.toList

/-- The token that marks the end of the input. -/
def eof (s : Scan) : Token :=
  Token.eof (Word.saturate s.finish.line) (Word.saturate s.finish.offset)

/-- The tokens in source order, the end token last. -/
def tokens (s : Scan) : List Token :=
  s.findings.filterMap Finding.token? ++ [s.eof]

/-- The faults in source order. -/
def faults (s : Scan) : List Fault :=
  s.findings.filterMap Finding.fault?

/-- What reporters are told of a scan, in the order in which they are told. -/
def diagnostics (s : Scan) : List Diagnostic :=
  s.faults.map Fault.toDiagnostic

theorem getLast?_tokens (s : Scan) : s.tokens.getLast? = some s.eof := by
  simp [tokens]

/-- Tokens and faults are the findings and one end token. -/
theorem length_findings (s : Scan) : s.findings.length + 1 = s.tokens.length + s.faults.length := by
  have halves : ∀ l : List Finding,
      l.length = (l.filterMap Finding.token?).length + (l.filterMap Finding.fault?).length := by
    intro l
    induction l with
    | nil => rfl
    | cons found l ih =>
        cases found with
        | token t =>
            simp only [List.filterMap_cons, Finding.token?, Finding.fault?, List.length_cons]
            omega
        | fault f =>
            simp only [List.filterMap_cons, Finding.token?, Finding.fault?, List.length_cons]
            omega
  have split := halves s.findings
  simp only [tokens, faults, List.length_append, List.length_singleton]
  omega

end Scan

end LoxScan
