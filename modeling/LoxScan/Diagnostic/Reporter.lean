import LoxScan.Diagnostic.Basic

/-!
# Reporters

A reporter is told of problems one by one and remembers how many there were since it was made or
last reset. What else it does with them, keeping or showing them, is its own business. The count
alone decides whether a run went wrong, and a `Guarantee` can only be had from a count that is not
zero.

* **`LawfulReporter`**: every report counts one and a reset counts none, whatever is suppressed or
  cannot be written.
* **`errorCount_reportAll`**: so a row of reports counts its length.
-/

namespace LoxScan

-- ── Evidence of errors ──────────────

/-- Evidence that at least one error was reported. -/
inductive Guarantee
  | reported
deriving DecidableEq

namespace Guarantee

/-- The evidence that a count of errors gives: none if the count is zero. -/
def ofCount? : Nat → Option Guarantee
  | 0 => none
  | _ + 1 => some reported

/-- There is evidence exactly if something was counted. -/
theorem isSome_ofCount? (count : Nat) : (ofCount? count).isSome = true ↔ 0 < count := by
  cases count with
  | zero => decide
  | succ n => simp [ofCount?]

end Guarantee

-- ── The interface ───────────────────

/-- Something that takes diagnostics and counts them. -/
class Reporter (ρ : Type) where
  /-- Takes one diagnostic. -/
  report : ρ → Diagnostic → ρ
  /-- The number of errors since the start or the last reset. -/
  errorCount : ρ → Nat
  /-- Forgets all errors. -/
  reset : ρ → ρ

/-- Every report counts one, and a reset counts none. -/
class LawfulReporter (ρ : Type) [Reporter ρ] : Prop where
  errorCount_report (r : ρ) (d : Diagnostic) :
    Reporter.errorCount (Reporter.report r d) = Reporter.errorCount r + 1
  errorCount_reset (r : ρ) : Reporter.errorCount (Reporter.reset r) = 0

namespace Reporter

variable {ρ : Type} [Reporter ρ]

/-- Reports a message at a line and a place in the program. -/
def errorAt (r : ρ) (line : Word) (location message : String) : ρ :=
  report r { line, location, message }

/-- Reports a message at a line. -/
def error (r : ρ) (line : Word) (message : String) : ρ :=
  errorAt r line "" message

/-- Whether any error was reported. -/
def hadError (r : ρ) : Bool :=
  decide (0 < errorCount r)

/-- Evidence of an error, if any was reported. -/
def guarantee? (r : ρ) : Option Guarantee :=
  Guarantee.ofCount? (errorCount r)

/-- Reports diagnostics in order. -/
def reportAll (r : ρ) (ds : List Diagnostic) : ρ :=
  ds.foldl report r

@[simp] theorem reportAll_nil (r : ρ) : reportAll r [] = r :=
  rfl

@[simp] theorem reportAll_cons (r : ρ) (d : Diagnostic) (ds : List Diagnostic) :
    reportAll r (d :: ds) = reportAll (report r d) ds :=
  rfl

theorem errorCount_reportAll [LawfulReporter ρ] (r : ρ) (ds : List Diagnostic) :
    errorCount (reportAll r ds) = errorCount r + ds.length := by
  induction ds generalizing r with
  | nil => rfl
  | cons d ds ih =>
      rw [reportAll_cons, ih, LawfulReporter.errorCount_report, List.length_cons]
      omega

end Reporter

end LoxScan
