import LoxScan.Diagnostic.Emitter
import LoxScan.Diagnostic.Queue
import LoxScan.Run.Plan
import LoxScan.Text.Utf8

/-!
# Scanning a script

A text is scanned and its tokens are printed, one to a line; its faults are told to a reporter. A
script is the text of a file. Its faults are collected up to the limit and shown after all tokens,
in order of position, with a note of how many more there were. A file that is no text is scanned all
the same: each malformed piece of it becomes a replacement character, which begins no token and so
shows up as a fault.

* **`printing_length`**: a dump has one line for every token.
* **`showing_eq_nil_iff`**: nothing is shown exactly if there were no faults.
-/

namespace LoxScan

/-- The line of a token in a dump, with its value if asked for. -/
def Token.dumpLine (t : Token) (showLiterals : Bool) : String :=
  (if showLiterals then t.text else t.brief) ++ "\n"

namespace Script

-- ── Printing tokens ─────────────────

/-- What is logged of a scan. -/
def logging (s : Scan) : List Action :=
  s.events.map Action.log

/-- What is printed of a scan. -/
def printing (config : Config) (s : Scan) : List Action :=
  s.tokens.map fun t => .print (t.dumpLine config.showLiterals)

/-- Scans a text, tells a reporter its faults, and prints its tokens. -/
def scanText {ρ : Type} [Reporter ρ] (config : Config) (text : List Char) (reporter : ρ) :
    List Action × ρ :=
  let s := Scan.ofList text
  (logging s ++ printing config s, Reporter.reportAll reporter s.diagnostics)

/-- What scanning a source prints on an output that does not fail. -/
def printed {ρ : Type} [Reporter ρ] (config : Config) (source : String) (reporter : ρ) :
    List UInt8 :=
  (Console.performAll {} (scanText config source.toList reporter).1).1.out.toList

/-- A dump has one line for every token. -/
@[simp] theorem printing_length (config : Config) (s : Scan) :
    (printing config s).length = s.tokens.length := by
  simp [printing]

-- ── Showing faults ──────────────────

/-- An emitter over a writer. Colours have been settled before; unsettled ones are left out. -/
def emitter {ω : Type} (config : Config) (writer : ω) : Emitter ω :=
  { writer, colored := config.color.colors false }

/-- An emitter over a writer after everything in a queue was shown on it. -/
def shown {ω : Type} [Writer ω] (config : Config) (q : Queue) (writer : ω) : Emitter ω :=
  ((Reporter.reportAll (emitter config writer) q.flush.1).noteSuppressed q.suppressed).flush

/-- The same over a writer that writes later. -/
def collected (config : Config) (q : Queue) : Emitter (Array Action) :=
  shown config q #[]

/-- The actions that show everything in a queue, if there is anything, and log how much. -/
def showing (config : Config) (q : Queue) : List Action :=
  match Reporter.guarantee? q with
  | none => []
  | some _ =>
    (collected config q).writer.toList ++
      [.log (.faultsShown (collected config q).errorCount q.suppressed)]

/-- Shows everything in a queue on the error stream at once, if there is anything, and logs how
much. -/
def showAtOnce (config : Config) (q : Queue) (c : Console) : Console :=
  match Reporter.guarantee? q with
  | none => c
  | some _ =>
    let emitted := shown config q c.err
    ({ c with err := emitted.writer } : Console).record
      (.faultsShown emitted.errorCount q.suppressed)

/-- Nothing is shown exactly if there were no faults. -/
theorem showing_eq_nil_iff (config : Config) (q : Queue) :
    showing config q = [] ↔ Reporter.guarantee? q = none := by
  unfold showing
  split
  case h_1 h => simp [h]
  case h_2 h => simp [h]

-- ── Scripts ─────────────────────────

/-- Scans the content of a script, prints its tokens, and shows its faults. The outcome is evidence
of faults, if there were any. -/
def planText (config : Config) (text : List Char) : Plan (Option Guarantee) :=
  let scanned := scanText config text (Queue.withLimit config.errorLimit)
  ⟨scanned.1 ++ .flush :: showing config scanned.2, .ok (Reporter.guarantee? scanned.2)⟩

/-- Scans the script at a path, given what reading it gave. -/
def plan (config : Config) (path : String) (content : Except ReadError (List UInt8)) :
    Plan (Option Guarantee) :=
  match content with
  | .error cause => ⟨[.log (.scriptStarted path)], .error (.unreadable path cause)⟩
  | .ok bytes =>
    let planned := planText config (Utf8.decodeLossy bytes)
    ⟨.log (.scriptStarted path) :: planned.actions, planned.outcome⟩

/-- Runs the script at a path: prints its tokens and then shows its faults at once. -/
def run (config : Config) (path : String) (content : Except ReadError (List UInt8))
    (c : Console) : Console × Except Failure (Option Guarantee) :=
  match content with
  | .error cause => (c.record (.scriptStarted path), .error (.unreadable path cause))
  | .ok bytes =>
    let scanned := scanText config (Utf8.decodeLossy bytes) (Queue.withLimit config.errorLimit)
    match (c.record (.scriptStarted path)).performAll (scanned.1 ++ [.flush]) with
    | (next, none) => (showAtOnce config scanned.2 next, .ok (Reporter.guarantee? scanned.2))
    | (next, some cause) => (next, .error (.stream cause))

end Script

end LoxScan
