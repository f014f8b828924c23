import LoxScan.Diagnostic.Color
import LoxScan.Diagnostic.Reporter
import LoxScan.Output.Writer

/-!
# The diagnostic emitter

An emitter shows every diagnostic as soon as it is reported, on one line, and keeps nothing but the
count. The line is the diagnostic's text with its code in brackets after the word for an error; with
colours, the position is bold and the word with the code is bold red. What it writes to may fail
without the emitter taking notice: it counts all the same and goes on writing.

* **`errorCount_report`**: every report counts one.
-/

namespace LoxScan

/-- A writer, whether to colour, and the number of errors so far. -/
structure Emitter (ω : Type) where
  writer : ω
  colored : Bool
  errorCount : Nat := 0

namespace Emitter

-- ── Lines ───────────────────────────

/-- The word for an error, with the code if there is one. -/
def label (d : Diagnostic) : String :=
  match d.code with
  | some code => "Error[" ++ code.text ++ "]"
  | none => "Error"

/-- The line of a diagnostic, in the pieces in which it is written. -/
def pieces (colored : Bool) (d : Diagnostic) : List String :=
  [Style.bold.paint colored d.positionText, " ", Style.boldRed.paint colored (label d),
    d.explanation ++ "\n"]

/-- The line that says how many errors a limit kept from being shown, in pieces; none for no
error. -/
def notePieces (colored : Bool) (count : Nat) : List String :=
  if count = 0 then []
  else
    [Style.bold.paint colored "note",
      ": " ++ Nat.repr count ++ " more error" ++ (if count = 1 then "" else "s") ++
        " not shown (raise --error-limit to see them)\n"]

-- ── Operations ──────────────────────

variable {ω : Type} [Writer ω]

/-- Shows a diagnostic and counts it. -/
def report (e : Emitter ω) (d : Diagnostic) : Emitter ω :=
  { e with writer := Writer.writeAll e.writer (pieces e.colored d), errorCount := e.errorCount + 1 }

/-- Says how many errors a limit kept from being shown. -/
def noteSuppressed (e : Emitter ω) (count : Nat) : Emitter ω :=
  { e with writer := Writer.writeAll e.writer (notePieces e.colored count) }

/-- Flushes the writer. -/
def flush (e : Emitter ω) : Emitter ω :=
  { e with writer := Writer.flush e.writer }

/-- Starts counting again. -/
def reset (e : Emitter ω) : Emitter ω :=
  { e with errorCount := 0 }

instance : Reporter (Emitter ω) :=
  ⟨report, errorCount, reset⟩

instance : LawfulReporter (Emitter ω) where
  errorCount_report _ _ := rfl
  errorCount_reset _ := rfl

@[simp] theorem errorCount_report (e : Emitter ω) (d : Diagnostic) :
    (e.report d).errorCount = e.errorCount + 1 :=
  rfl

@[simp] theorem errorCount_noteSuppressed (e : Emitter ω) (count : Nat) :
    (e.noteSuppressed count).errorCount = e.errorCount :=
  rfl

@[simp] theorem errorCount_flush (e : Emitter ω) : e.flush.errorCount = e.errorCount :=
  rfl

end Emitter

end LoxScan
