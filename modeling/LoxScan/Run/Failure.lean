import LoxScan.Output.Sink
import LoxScan.Run.Config

/-!
# Failures and exit statuses

What can stop a program, as opposed to what can be wrong with a script. A failure knows its message
and its exit status. A script that cannot be read counts as wrong usage, because the path was given
on the command line; faults in a script have a status of their own, which is no failure.

* **`code_injective`**: the exit code tells the four ways to end apart.
-/

namespace LoxScan

/-- How a program ends. -/
inductive ExitStatus
  | success
  | usageError
  | dataError
  | streamError
deriving DecidableEq

namespace ExitStatus

/-- The code that is given to the system. -/
def code : ExitStatus → UInt32
  | success => 0
  | usageError => 64
  | dataError => 65
  | streamError => 74

/-- The exit code tells the ways to end apart. -/
theorem code_injective {a b : ExitStatus} (h : a.code = b.code) : a = b := by
  revert h
  cases a <;> cases b <;> decide

end ExitStatus

/-- Why a file cannot be read, as the system tells it. -/
structure ReadError where
  text : String
deriving DecidableEq

/-- Why a program stops. -/
inductive Failure
  | usage (cause : UsageError)
  | unreadable (path : String) (cause : ReadError)
  | stream (cause : StreamError)
deriving DecidableEq

namespace Failure

/-- The text of a failure. -/
def message : Failure → String
  | usage cause => cause.message
  | unreadable path cause => "could not read '" ++ path ++ "': " ++ cause.text
  | stream cause => "i/o error: " ++ cause.text

/-- The status with which a program ends after a failure. -/
def status : Failure → ExitStatus
  | usage _ => .usageError
  | unreadable .. => .usageError
  | stream _ => .streamError

end Failure

end LoxScan
