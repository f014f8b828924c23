import LoxScan.Proofs.Reports
import LoxScan.Proofs.Sessions
import LoxScan.Run.Program

/-!
# What an exit status tells

A program has four ways to end, and which of them it takes can be told from what it was given. Wrong
usage is arguments that are rejected, or a script that cannot be read; bad data is a script with a
fault in it, whatever is shown of the fault and however; a broken stream is an input with a line
that is no text, if a session comes as far as that. In all other cases, faults in the lines of a
session among them, the program ends well.

Nothing else has a part in this. What reading a file gives is the system's to say, and holds for
every path alike; the log goes to the error stream, and what becomes of that is not looked at.

* **`run_eq`**: on streams that do not fail a program ends as its plan says, whatever is logged.
* **`endingOf_eq_error_iff`**: a session fails exactly if it reaches a line that is no text.
* **`status_eq_iff`**: a program ends with a status exactly if what that status tells is so.
* **`exit_status_tells`**: the same for exit codes, beside what is printed.
-/

namespace LoxScan

open Utf8

-- ── Sessions that fail ──────────────

namespace Prompt

/-- There is a line that is no text, and every line before it is text and has more than line
ends. -/
def Reaches (lines : List (List UInt8)) : Prop :=
  ∃ before line after, lines = before ++ line :: after ∧ decode? line = none ∧
    ∀ earlier ∈ before, ∃ text, decode? earlier = some text ∧ trimLineEnds text ≠ []

theorem goesOn_iff {line : List UInt8} :
    goesOn line = true ↔ ∃ text, decode? line = some text ∧ trimLineEnds text ≠ [] := by
  rw [goesOn, lineText?]
  cases decode? line with
  | none =>
      refine iff_of_false Bool.false_ne_true ?_
      rintro ⟨text, decoded, -⟩
      cases decoded
  | some text =>
      cases trimmed : trimLineEnds text with
      | nil => simp [trimmed]
      | cons c rest => simp [trimmed]

/-- **Sessions that fail** are those that reach a line that is no text. -/
theorem endingOf_eq_error_iff {lines : List (List UInt8)} :
    endingOf lines = .error (.stream .invalidUtf8) ↔ Reaches lines := by
  constructor
  · intro fails
    rw [endingOf] at fails
    split at fails
    case h_1 => cases fails
    case h_2 line found =>
      obtain ⟨-, before, after, cut, earlier⟩ := List.find?_eq_some_iff_append.1 found
      split at fails
      case h_1 malformed =>
        refine ⟨before, line, after, cut, malformed, fun l hl => goesOn_iff.1 ?_⟩
        simpa using earlier l hl
      case h_2 => cases fails
  · rintro ⟨before, line, after, rfl, malformed, earlier⟩
    have stops : goesOn line = false := by
      rw [goesOn, lineText?, malformed]
      rfl
    have found : (before ++ line :: after).find? (!goesOn ·) = some line := by
      refine List.find?_eq_some_iff_append.2 ⟨by rw [stops]; rfl, before, after, rfl, ?_⟩
      intro l hl
      rw [goesOn_iff.2 (earlier l hl)]
      rfl
    rw [endingOf, found]
    dsimp only
    rw [malformed]

/-- A session is closed, or fails for a line that is no text. -/
theorem endingOf_cases (lines : List (List UInt8)) :
    endingOf lines = .ok () ∨ endingOf lines = .error (.stream .invalidUtf8) := by
  rw [endingOf]
  split
  case h_1 => exact Or.inl rfl
  case h_2 =>
    split
    case h_1 => exact Or.inr rfl
    case h_2 => exact Or.inl rfl

theorem endingOf_of_not_reaches {lines : List (List UInt8)} (h : ¬ Reaches lines) :
    endingOf lines = .ok () :=
  (endingOf_cases lines).resolve_right (mt endingOf_eq_error_iff.1 h)

theorem outcome_plan (config : Config) (input : List UInt8) :
    (plan config input).outcome = endingOf (byteLines input) := by
  rw [plan_eq_planLines, planLines_eq]

end Prompt

-- ── Programs ────────────────────────

namespace Program

variable {args : List String} {read : String → Except ReadError (List UInt8)} {input : List UInt8}
  {terminal : Bool}

/-- The arguments are rejected, or they name a script that cannot be read. -/
def Refused (args : List String) (read : String → Except ReadError (List UInt8)) : Prop :=
  (∃ cause, Config.ofArgs args = .error cause) ∨
    ∃ config path cause, Config.ofArgs args = .ok config ∧ config.mode = .file path ∧
      read path = .error cause

/-- The arguments name a script that can be read, and faults are told of its text. -/
def Faulty (args : List String) (read : String → Except ReadError (List UInt8)) : Prop :=
  ∃ config path bytes told, Config.ofArgs args = .ok config ∧ config.mode = .file path ∧
    read path = .ok bytes ∧ Sweep.lex (decodeLossy bytes) (Queue.withLimit 0) = .ok told ∧
    0 < told.reporter.errorCount

/-- The arguments ask for a session, and that reaches a line that is no text. -/
def Broken (args : List String) (input : List UInt8) : Prop :=
  ∃ config, Config.ofArgs args = .ok config ∧ config.mode = .prompt ∧
    Prompt.Reaches (byteLines input)

/-- What a status tells of what a program was given. -/
def Tells (args : List String) (read : String → Except ReadError (List UInt8))
    (input : List UInt8) : ExitStatus → Prop
  | .usageError => Refused args read
  | .dataError => Faulty args read
  | .streamError => Broken args input
  | .success => ¬ Refused args read ∧ ¬ Faulty args read ∧ ¬ Broken args input

/-- The status with which a program ends after an outcome. -/
def statusAfter : Except Failure ExitStatus → ExitStatus
  | .ok status => status
  | .error f => f.status

/-- A program begins on streams that do not fail, with nothing printed. -/
theorem console_unfailing (env : String → Option String) (logger : String → Logger) :
    (console env logger).Unfailing ∧ (console env logger).out = {} := by
  rw [console]
  split
  case h_1 => exact ⟨Console.unfailing_default, rfl⟩
  case h_2 directives _ =>
    have opened := Sink.Unfailing.write (s := {}) ⟨rfl, rfl⟩ (logger directives).opening
    refine ⟨⟨⟨rfl, rfl⟩, ?_⟩, rfl⟩
    show (Sink.write {} (logger directives).opening).1.Unfailing
    rw [opened]
    exact ⟨rfl, rfl⟩

/-- **Runs.** On streams that do not fail a program prints and ends as its plan says, whatever is
logged. -/
theorem run_eq (args : List String) (read : String → Except ReadError (List UInt8))
    (input : List UInt8) (terminal : Bool) (env : String → Option String)
    (logger : String → Logger) :
    (run args read input terminal env logger).status =
        statusAfter (plan args read input terminal).outcome ∧
      (run args read input terminal env logger).output =
        Sink.grown {} ((plan args read input terminal).actions.flatMap Action.output)
          ((plan args read input terminal).actions.count .flush) := by
  obtain ⟨unfailing, unprinted⟩ := console_unfailing env logger
  rw [run, Plan.perform_of_unfailing unfailing, ← unprinted]
  cases (plan args read input terminal).outcome with
  | ok status => exact ⟨rfl, rfl⟩
  | error f => exact ⟨rfl, rfl⟩

section Accepted

variable {config : Config} (accepted : Config.ofArgs args = .ok config)
include accepted

theorem plan_of_ok (read : String → Except ReadError (List UInt8)) (input : List UInt8)
    (terminal : Bool) :
    plan args read input terminal = planConfig (config.settleColor terminal) read input := by
  rw [plan, accepted]

theorem plan_of_prompt (mode : config.mode = .prompt)
    (read : String → Except ReadError (List UInt8)) (input : List UInt8) (terminal : Bool) :
    plan args read input terminal =
      ending (Prompt.plan (config.settleColor terminal) input) fun _ => .success := by
  have settled : (config.settleColor terminal).mode = .prompt := mode
  rw [plan_of_ok accepted, planConfig, settled]

theorem plan_of_file {path : String} (mode : config.mode = .file path)
    (read : String → Except ReadError (List UInt8)) (input : List UInt8) (terminal : Bool) :
    plan args read input terminal =
      ending (Script.plan (config.settleColor terminal) path (read path)) statusOf := by
  have settled : (config.settleColor terminal).mode = .file path := mode
  rw [plan_of_ok accepted, planConfig, settled]

end Accepted

-- ── Four ways to end ────────────────

/-- A program that is refused does nothing but log. -/
theorem plan_of_refused (h : Refused args read) (input : List UInt8) (terminal : Bool) :
    statusAfter (plan args read input terminal).outcome = .usageError ∧
      (plan args read input terminal).actions.flatMap Action.output = [] := by
  rcases h with ⟨cause, rejected⟩ | ⟨config, path, cause, accepted, mode, unreadable⟩
  · rw [plan_of_error rejected]
    exact ⟨rfl, rfl⟩
  · rw [plan_of_file accepted mode, unreadable]
    exact ⟨rfl, rfl⟩

/-- A script is faulty exactly if there are faults in its text, and then a program ends with bad
data. -/
theorem status_of_script {config : Config} {path : String} {bytes : List UInt8}
    (accepted : Config.ofArgs args = .ok config) (mode : config.mode = .file path)
    (readable : read path = .ok bytes) (input : List UInt8) (terminal : Bool) :
    statusAfter (plan args read input terminal).outcome =
      if 0 < (Script.faultsOf bytes).length then .dataError else .success := by
  rw [plan_of_file accepted mode, readable]
  show statusAfter
    ((Script.plan (config.settleColor terminal) path (.ok bytes)).outcome.map statusOf) = _
  rw [Script.outcome_plan]
  show statusOf (if 0 < (Script.faultsOf bytes).length then some .reported else none) = _
  split
  case isTrue => rfl
  case isFalse => rfl

/-- As many faults are told of a text as there are in it. -/
theorem errorCount_of_lex {bytes : List UInt8} {told : Told Queue}
    (swept : Sweep.lex (decodeLossy bytes) (Queue.withLimit 0) = .ok told) :
    told.reporter.errorCount = (Script.faultsOf bytes).length := by
  rw [Sweep.lex_eq] at swept
  obtain rfl := Except.ok.inj swept
  rw [Scan.reporter_told, Queue.errorCount_holding]
  rfl

theorem status_of_faulty (h : Faulty args read) (input : List UInt8) (terminal : Bool) :
    statusAfter (plan args read input terminal).outcome = .dataError := by
  obtain ⟨config, path, bytes, told, accepted, mode, readable, swept, faults⟩ := h
  rw [errorCount_of_lex swept] at faults
  rw [status_of_script accepted mode readable, if_pos faults]

theorem status_of_broken (h : Broken args input)
    (read : String → Except ReadError (List UInt8)) (terminal : Bool) :
    statusAfter (plan args read input terminal).outcome = .streamError := by
  obtain ⟨config, accepted, mode, reaches⟩ := h
  rw [plan_of_prompt accepted mode]
  show statusAfter ((Prompt.plan (config.settleColor terminal) input).outcome.map _) = _
  rw [Prompt.outcome_plan, Prompt.endingOf_eq_error_iff.2 reaches]
  rfl

/-- A program that only tells about itself ends well. -/
theorem status_of_request {config : Config} (accepted : Config.ofArgs args = .ok config)
    (request : config.mode = .help ∨ config.mode = .version)
    (read : String → Except ReadError (List UInt8)) (input : List UInt8) (terminal : Bool) :
    statusAfter (plan args read input terminal).outcome = .success := by
  have settled : (config.settleColor terminal).mode = config.mode := rfl
  rw [plan_of_ok accepted, planConfig, settled]
  rcases request with mode | mode
  · rw [mode]
    rfl
  · rw [mode]
    rfl

theorem status_of_fine (refused : ¬ Refused args read) (faulty : ¬ Faulty args read)
    (broken : ¬ Broken args input) (terminal : Bool) :
    statusAfter (plan args read input terminal).outcome = .success := by
  cases accepted : Config.ofArgs args with
  | error cause => exact absurd (Or.inl ⟨cause, accepted⟩) refused
  | ok config =>
      cases mode : config.mode with
      | prompt =>
          have closes : Prompt.endingOf (byteLines input) = .ok () :=
            Prompt.endingOf_of_not_reaches fun reaches =>
              broken ⟨config, accepted, mode, reaches⟩
          rw [plan_of_prompt accepted mode]
          show statusAfter ((Prompt.plan (config.settleColor terminal) input).outcome.map _) = _
          rw [Prompt.outcome_plan, closes]
          rfl
      | file path =>
          cases readable : read path with
          | error cause =>
              exact absurd (Or.inr ⟨config, path, cause, accepted, mode, readable⟩) refused
          | ok bytes =>
              rw [status_of_script accepted mode readable, if_neg]
              intro faults
              have swept := Sweep.lex_eq (decodeLossy bytes) (Queue.withLimit 0)
              rw [← errorCount_of_lex swept] at faults
              exact faulty ⟨config, path, bytes, _, accepted, mode, readable, swept, faults⟩
      | help => exact status_of_request accepted (Or.inl mode) read input terminal
      | version => exact status_of_request accepted (Or.inr mode) read input terminal

/-- What a status tells makes a program end with it. -/
theorem status_of_tells {status : ExitStatus} (h : Tells args read input status) :
    statusAfter (plan args read input terminal).outcome = status := by
  cases status with
  | usageError => exact (plan_of_refused h input terminal).1
  | dataError => exact status_of_faulty h input terminal
  | streamError => exact status_of_broken h read terminal
  | success => exact status_of_fine h.1 h.2.1 h.2.2 terminal

/-- Some status tells what is so. -/
theorem exists_tells (args : List String) (read : String → Except ReadError (List UInt8))
    (input : List UInt8) : ∃ status, Tells args read input status := by
  by_cases refused : Refused args read
  · exact ⟨.usageError, refused⟩
  · by_cases faulty : Faulty args read
    · exact ⟨.dataError, faulty⟩
    · by_cases broken : Broken args input
      · exact ⟨.streamError, broken⟩
      · exact ⟨.success, refused, faulty, broken⟩

/-- **Statuses.** A program ends with a status exactly if what that status tells is so. -/
theorem status_eq_iff {status : ExitStatus} :
    statusAfter (plan args read input terminal).outcome = status ↔
      Tells args read input status := by
  refine ⟨?_, status_of_tells⟩
  rintro rfl
  obtain ⟨status, tells⟩ := exists_tells args read input
  rw [status_of_tells tells]
  exact tells

/-- What the exit code of a program tells, on streams that do not fail. It is 64 if the program was
refused, which then has printed nothing; 65 if it was given a faulty script; 74 if its input is
broken; and 0 in all other cases. Neither the status nor what is printed depends on the variables
that say how to log, or on the logger. -/
structure StatusTells (args : List String) (read : String → Except ReadError (List UInt8))
    (input : List UInt8) (terminal : Bool) (env : String → Option String)
    (logger : String → Logger) : Prop where
  refused : (run args read input terminal env logger).status.code = 64 ↔ Refused args read
  silent : (run args read input terminal env logger).status.code = 64 →
    (run args read input terminal env logger).output.toList = []
  faulty : (run args read input terminal env logger).status.code = 65 ↔ Faulty args read
  broken : (run args read input terminal env logger).status.code = 74 ↔ Broken args input
  fine : (run args read input terminal env logger).status.code = 0 ↔
    ¬ Refused args read ∧ ¬ Faulty args read ∧ ¬ Broken args input
  sameStatus : ∀ env' logger', (run args read input terminal env' logger').status =
    (run args read input terminal env logger).status
  sameOutput : ∀ env' logger', (run args read input terminal env' logger').output =
    (run args read input terminal env logger).output

end Program

/-- **Exit statuses.** The exit status of a program tells exactly what happened. -/
theorem exit_status_tells (args : List String) (read : String → Except ReadError (List UInt8))
    (input : List UInt8) (terminal : Bool) (env : String → Option String)
    (logger : String → Logger) :
    Program.StatusTells args read input terminal env logger := by
  have run (env : String → Option String) (logger : String → Logger) :=
    Program.run_eq args read input terminal env logger
  have code (status : ExitStatus) :
      (Program.run args read input terminal env logger).status.code = status.code ↔
        Program.Tells args read input status := by
    rw [← Program.status_eq_iff, ← (run env logger).1]
    exact ⟨ExitStatus.code_injective, congrArg ExitStatus.code⟩
  refine ⟨code .usageError, ?_, code .dataError, code .streamError, code .success, ?_, ?_⟩
  · intro usage
    have refused : Program.Refused args read := (code .usageError).1 usage
    rw [(run env logger).2, Sink.toList_grown, (Program.plan_of_refused refused input terminal).2]
    rfl
  · intro env' logger'
    rw [(run env' logger').1, (run env logger).1]
  · intro env' logger'
    rw [(run env' logger').2, (run env logger).2]

end LoxScan
