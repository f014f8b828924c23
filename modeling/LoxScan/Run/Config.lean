import LoxScan.Diagnostic.Color
import LoxScan.Number.Decimal

/-!
# Configuration

What a program is told on its command line. Every argument is read by itself first: a request for
help or for the version, a switch, an option with a value, or else the path of a script, which a
lone dash is too. Then the arguments are taken in order; the last of a kind counts, but two scripts
are too many. The first argument that is unacceptable, by itself or after those before it, decides
the failure.

A request for help or for the version is answered whether a script is named or not. Without either,
a script is scanned if one is named, and lines from a prompt if none is.

* **`ofArgs_nil`**: no arguments make a prompt with nothing else chosen.
* **`mode_eq_file_iff`**: a script is scanned exactly if it is named and nothing is requested.
-/

namespace LoxScan

-- ── Arguments ───────────────────────

/-- An argument by itself. -/
inductive Argument
  | help
  | version
  | literals
  | color (mode : ColorMode)
  | errorLimit (n : Nat)
  | script (path : String)
deriving DecidableEq

/-- Why arguments are unacceptable. -/
inductive UsageError
  | invalidColor (value : String)
  | invalidErrorLimit (value : String)
  | unknownOption (argument : String)
  | secondScript
deriving DecidableEq

namespace UsageError

/-- The text of a failure. -/
def message : UsageError → String
  | invalidColor value =>
    "invalid --color value '" ++ value ++ "' (expected auto, always or never)"
  | invalidErrorLimit value => "invalid --error-limit value '" ++ value ++ "'"
  | unknownOption argument => "unknown option '" ++ argument ++ "'"
  | secondScript => "expected at most one script argument"

end UsageError

/-- The largest limit that can be chosen. -/
def largestLimit : Nat := 18446744073709551615

/-- Reads a row of decimal digits, at least one, up to the largest limit. -/
def limitOfDigits? (digits : List Char) : Option Nat :=
  let n := Decimal.valueOfDigits digits
  if digits ≠ [] ∧ digits.all Char.isDigit ∧ n ≤ largestLimit then some n else none

/-- Reads a limit: digits with at most one plus sign in front. -/
def limitOfString? (value : String) : Option Nat :=
  match value.toList with
  | '+' :: digits => limitOfDigits? digits
  | digits => limitOfDigits? digits

namespace Argument

/-- What follows a prefix of a text, if the text begins with it. -/
def after? (start text : String) : Option String :=
  (start.toList.isPrefixOf? text.toList).map String.ofList

/-- Reads an argument that is neither a request nor a switch. -/
def ofValue (argument : String) : Except UsageError Argument :=
  match after? "--color=" argument, after? "--error-limit=" argument with
  | some value, _ =>
    match ColorMode.ofText? value with
    | some mode => .ok (color mode)
    | none => .error (.invalidColor value)
  | none, some value =>
    match limitOfString? value with
    | some n => .ok (errorLimit n)
    | none => .error (.invalidErrorLimit value)
  | none, none =>
    if "-".toList.isPrefixOf argument.toList ∧ argument ≠ "-"
      then .error (.unknownOption argument)
    else .ok (script argument)

/-- Reads an argument by itself. -/
def ofString (argument : String) : Except UsageError Argument :=
  match argument with
  | "-h" | "--help" => .ok help
  | "-V" | "--version" => .ok version
  | "--literals" => .ok literals
  | _ => ofValue argument

end Argument

-- ── Configurations ──────────────────

/-- What a program is to do. -/
inductive Mode
  | prompt
  | file (path : String)
  | help
  | version
deriving DecidableEq

/-- What a program can be asked to tell about itself. -/
inductive Request
  | help
  | version
deriving DecidableEq

/-- What was chosen so far. -/
structure Choices where
  request : Option Request := none
  script : Option String := none
  showLiterals : Bool := false
  color : ColorMode := .auto
  errorLimit : Nat := 0
deriving DecidableEq

/-- A complete configuration. -/
structure Config where
  mode : Mode := .prompt
  showLiterals : Bool := false
  color : ColorMode := .auto
  errorLimit : Nat := 0
deriving DecidableEq

namespace Choices

/-- Takes one more argument. -/
def add (c : Choices) : Argument → Except UsageError Choices
  | .help => .ok { c with request := some .help }
  | .version => .ok { c with request := some .version }
  | .literals => .ok { c with showLiterals := true }
  | .color mode => .ok { c with color := mode }
  | .errorLimit n => .ok { c with errorLimit := n }
  | .script path =>
    match c.script with
    | some _ => .error .secondScript
    | none => .ok { c with script := some path }

/-- Reads one more argument and takes it. -/
def read (c : Choices) (argument : String) : Except UsageError Choices :=
  match Argument.ofString argument with
  | .ok a => c.add a
  | .error e => .error e

/-- What is to be done. A request comes before a script. -/
def mode (c : Choices) : Mode :=
  match c.request, c.script with
  | some .help, _ => .help
  | some .version, _ => .version
  | none, some path => .file path
  | none, none => .prompt

/-- The configuration that was chosen. -/
def config (c : Choices) : Config :=
  ⟨c.mode, c.showLiterals, c.color, c.errorLimit⟩

/-- A script is scanned exactly if it is named and nothing is requested. -/
theorem mode_eq_file_iff {c : Choices} {path : String} :
    c.mode = .file path ↔ c.request = none ∧ c.script = some path := by
  unfold mode
  split <;> simp_all

end Choices

namespace Config

/-- Reads the arguments of a program, its own name left out. -/
def ofArgs (args : List String) : Except UsageError Config :=
  match args.foldlM Choices.read {} with
  | .ok c => .ok c.config
  | .error e => .error e

/-- Settles the colours for the stream that messages go to. -/
def settleColor (c : Config) (terminal : Bool) : Config :=
  { c with color := c.color.settle terminal }

/-- No arguments choose nothing. -/
@[simp] theorem ofArgs_nil : ofArgs [] = .ok {} :=
  rfl

end Config

end LoxScan
