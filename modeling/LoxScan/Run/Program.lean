import LoxScan.Run.Prompt

/-!
# The program

The command line from its arguments to its exit status. A program is given its arguments and its
input; what reading a file gives, the variables of the environment and whether messages go to a
terminal are the system's to say, and how a log is shown is the logger's. What a program does is
again a plan, so that running it is performing that plan on a console and saying what stopped it, if
anything did.

* **`statusOf_ofCount?`**: a script ends well exactly if no fault was counted.
* **`plan_of_error`**: with arguments that are not acceptable nothing else is done.
-/

namespace LoxScan

-- ── What a program says about itself ──

namespace Program

/-- The summary of the usage, shown on wrong usage too. -/
def usage : String :=
  "Usage: loxc [script]"

/-- The name and version. -/
def versionText : String :=
  "loxc 0.1.0\n"

/-- The lines of the help. -/
def helpLines : List String :=
  [usage,
    "",
    "With no script, reads lines from standard input and scans each one.",
    "",
    "Options:",
    "  --literals            Print literal values after each token",
    "  --color=<when>        Color diagnostics: auto, always, never",
    "  --error-limit=<n>     Show at most n errors (0 = unlimited)",
    "  -h, --help            Show this help",
    "  -V, --version         Show version",
    "",
    "Set LOX_LOG (or RUST_LOG) to enable tracing, e.g. LOX_LOG=lox_lexer=trace"]

/-- The help. -/
def helpText : String :=
  String.join (helpLines.map (· ++ "\n"))

-- ── Running ─────────────────────────

/-- How a program ends after a script, by the evidence of faults. -/
def statusOf : Option Guarantee → ExitStatus
  | none => .success
  | some .reported => .dataError

/-- A plan whose outcome is the status with which the program ends. -/
def ending {α : Type} (plan : Plan α) (status : α → ExitStatus) : Plan ExitStatus :=
  ⟨plan.actions, plan.outcome.map status⟩

/-- What a program does with a configuration, given what reading a file gives. -/
def planConfig (config : Config) (read : String → Except ReadError (List UInt8))
    (input : List UInt8) : Plan ExitStatus :=
  match config.mode with
  | .help => ⟨[.print helpText], .ok .success⟩
  | .version => ⟨[.print versionText], .ok .success⟩
  | .prompt => ending (Prompt.plan config input) fun _ => .success
  | .file path => ending (Script.plan config path (read path)) statusOf

/-- What a program does, its messages going to a terminal or not. -/
def plan (args : List String) (read : String → Except ReadError (List UInt8)) (input : List UInt8)
    (terminal : Bool) : Plan ExitStatus :=
  match Config.ofArgs args with
  | .error cause => ⟨[], .error (.usage cause)⟩
  | .ok config => planConfig (config.settleColor terminal) read input

/-- What is said of a failure. Wrong usage is followed by the usage. -/
def complaint (f : Failure) : String :=
  "error: " ++ f.message ++ "\n" ++
    match f with
    | .usage _ => usage ++ "\n"
    | _ => ""

/-- The variables that say how to log, in the order in which they are looked at. -/
def logVariables : List String :=
  ["LOX_LOG", "RUST_LOG"]

/-- What an environment says on how to log: the first variable that is set, even to nothing. -/
def directives? (env : String → Option String) : Option String :=
  logVariables.findSome? env

/-- The console on which a program begins. Without directives nothing is logged. -/
def console (env : String → Option String) (logger : String → Logger) : Console :=
  match directives? env with
  | none => {}
  | some directives =>
    { err := Writer.write {} (logger directives).opening, line? := (logger directives).line? }

/-- How a program ended and what it wrote. -/
structure Ended where
  status : ExitStatus
  output : Sink
  errors : Sink

/-- Ends a program: a failure is complained of, and its status is the program's. -/
def finish (c : Console) : Except Failure ExitStatus → Ended
  | .ok status => ⟨status, c.out, c.err⟩
  | .error f => ⟨f.status, c.out, Writer.write c.err (complaint f)⟩

/-- Runs a program from its start to its end. -/
def run (args : List String) (read : String → Except ReadError (List UInt8)) (input : List UInt8)
    (terminal : Bool) (env : String → Option String) (logger : String → Logger) : Ended :=
  let performed := (plan args read input terminal).perform (console env logger)
  finish performed.1 performed.2

/-- A script ends well exactly if no fault was counted. -/
theorem statusOf_ofCount? (count : Nat) :
    statusOf (Guarantee.ofCount? count) = .success ↔ count = 0 := by
  cases count with
  | zero => simp [Guarantee.ofCount?, statusOf]
  | succ n => simp [Guarantee.ofCount?, statusOf]

/-- With arguments that are not acceptable nothing is done. -/
theorem plan_of_error {args : List String} {cause : UsageError}
    (h : Config.ofArgs args = .error cause)
    (read : String → Except ReadError (List UInt8)) (input : List UInt8) (terminal : Bool) :
    plan args read input terminal = ⟨[], .error (.usage cause)⟩ := by
  simp [plan, h]

end Program

end LoxScan
