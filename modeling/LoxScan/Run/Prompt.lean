import LoxScan.Run.Script

/-!
# The prompt

A session at the prompt asks for a line, scans it, prints its tokens and shows its faults, and asks
again. A line ends after its line feed, or with the input. The line ends at its back are not
scanned; a line with nothing else, and the end of the input, close the session. A line that is no
text is refused and fails it. One queue serves all lines; it is reset after each, so that no line
counts against the limit of another.

* **`nextLine_append`**: a line and the rest are the input.
* **`length_rest_lt`**: every line takes at least one byte, which is why a session ends.
* **`runFrom_of_failure`**, **`runFrom_of_closes`**, **`runFrom_of_fails`**, **`runFrom_of_scans`**:
  what a session does by its first line.
-/

namespace LoxScan.Prompt

-- ── Lines ───────────────────────────

/-- The first line of an input, with its line feed if it has one, and what is left. -/
def nextLine (input : List UInt8) : List UInt8 × List UInt8 :=
  let body := input.takeWhile (· ≠ 10)
  let tail := input.dropWhile (· ≠ 10)
  (body ++ tail.take 1, tail.drop 1)

/-- A line and the rest are the input. -/
theorem nextLine_append (input : List UInt8) :
    (nextLine input).1 ++ (nextLine input).2 = input := by
  simp only [nextLine]
  rw [List.append_assoc, List.take_append_drop, List.takeWhile_append_dropWhile]

theorem length_rest_lt {input : List UInt8} (h : (nextLine input).1 ≠ []) :
    (nextLine input).2.length < input.length := by
  have whole := congrArg List.length (nextLine_append input)
  have positive := List.length_pos_iff.2 h
  rw [List.length_append] at whole
  omega

/-- Whether a character ends a line. -/
def isLineEnd (c : Char) : Bool :=
  c == '\n' || c == '\r'

/-- A text without the line ends at its back. -/
def trimLineEnds (text : List Char) : List Char :=
  (text.reverse.dropWhile isLineEnd).reverse

/-- What a line does to a session. -/
inductive Turn
  /-- It closes it. -/
  | closes
  /-- It fails it, being no text. -/
  | fails
  /-- It is scanned. -/
  | scans (text : List Char)
deriving DecidableEq

/-- What a line does to a session. The end of the input is a line of no bytes. -/
def Turn.ofLine (line : List UInt8) : Turn :=
  match Utf8.decode? line with
  | none => fails
  | some text =>
    match trimLineEnds text with
    | [] => closes
    | c :: rest => scans (c :: rest)

/-- The end of the input closes a session. -/
@[simp] theorem Turn.ofLine_nil : Turn.ofLine [] = closes := by
  simp [ofLine, trimLineEnds]

theorem ne_nil_of_scans {line : List UInt8} {text : List Char}
    (h : Turn.ofLine line = .scans text) :
    line ≠ [] := by
  rintro rfl
  rw [Turn.ofLine_nil] at h
  exact nomatch h

-- ── Sessions ────────────────────────

/-- Asks for a line. -/
def asking : List Action :=
  [.print "> ", .flush]

/-- Scans a line and shows its faults, and gives the queue back for the next one. -/
def answering (config : Config) (text : List Char) (q : Queue) : List Action × Queue :=
  let scanned := Script.scanText config text q
  (scanned.1 ++ .flush :: Script.showing config scanned.2, scanned.2.reset)

/-- A session over an input, with the queue that is left from the lines before. -/
def planFrom (config : Config) (q : Queue) (input : List UInt8) : Plan Unit :=
  match h : Turn.ofLine (nextLine input).1 with
  | .closes => ⟨asking ++ [.log .promptClosed], .ok ()⟩
  | .fails => ⟨asking, .error (.stream .invalidUtf8)⟩
  | .scans text =>
    let answered := answering config text q
    let later := planFrom config answered.2 (nextLine input).2
    ⟨asking ++ answered.1 ++ later.actions, later.outcome⟩
termination_by input.length
decreasing_by exact length_rest_lt (ne_nil_of_scans h)

/-- A session over an input. -/
def plan (config : Config) (input : List UInt8) : Plan Unit :=
  planFrom config (Queue.withLimit config.errorLimit) input

/-- Runs a session with a queue: asks for a line, prints its tokens, shows its faults at once, and
goes on with the queue emptied. -/
def runFrom (config : Config) (q : Queue) (input : List UInt8) (c : Console) :
    Console × Except Failure Unit :=
  match c.performAll asking with
  | (asked, some cause) => (asked, .error (.stream cause))
  | (asked, none) =>
    match _h : Turn.ofLine (nextLine input).1 with
    | .closes => (asked.record .promptClosed, .ok ())
    | .fails => (asked, .error (.stream .invalidUtf8))
    | .scans text =>
      let scanned := Script.scanText config text q
      match asked.performAll (scanned.1 ++ [.flush]) with
      | (next, some cause) => (next, .error (.stream cause))
      | (next, none) =>
        runFrom config scanned.2.reset (nextLine input).2 (Script.showAtOnce config scanned.2 next)
termination_by input.length
decreasing_by exact length_rest_lt (ne_nil_of_scans _h)

/-- Runs a session. -/
def run (config : Config) (input : List UInt8) (c : Console) : Console × Except Failure Unit :=
  runFrom config (Queue.withLimit config.errorLimit) input c

-- ── One line of a session ───────────

section Turns

variable {config : Config} {q : Queue} {input : List UInt8} {c asked : Console}

theorem runFrom_of_failure {cause : StreamError}
    (asks : c.performAll asking = (asked, some cause)) :
    runFrom config q input c = (asked, .error (.stream cause)) := by
  rw [runFrom, asks]

theorem runFrom_of_closes (asks : c.performAll asking = (asked, none))
    (closes : Turn.ofLine (nextLine input).1 = .closes) :
    runFrom config q input c = (asked.record .promptClosed, .ok ()) := by
  rw [runFrom, asks]
  dsimp only
  split
  case h_1 => rfl
  case h_2 other => exact nomatch closes.symm.trans other
  case h_3 other => exact nomatch closes.symm.trans other

theorem runFrom_of_fails (asks : c.performAll asking = (asked, none))
    (fails : Turn.ofLine (nextLine input).1 = .fails) :
    runFrom config q input c = (asked, .error (.stream .invalidUtf8)) := by
  rw [runFrom, asks]
  dsimp only
  split
  case h_1 other => exact nomatch fails.symm.trans other
  case h_2 => rfl
  case h_3 other => exact nomatch fails.symm.trans other

theorem runFrom_of_scans {text : List Char} (asks : c.performAll asking = (asked, none))
    (scans : Turn.ofLine (nextLine input).1 = .scans text) :
    runFrom config q input c =
      match asked.performAll ((Script.scanText config text q).1 ++ [.flush]) with
      | (next, some cause) => (next, .error (.stream cause))
      | (next, none) => runFrom config (Script.scanText config text q).2.reset (nextLine input).2
        (Script.showAtOnce config (Script.scanText config text q).2 next) := by
  rw [runFrom, asks]
  dsimp only
  split
  case h_1 other => exact nomatch scans.symm.trans other
  case h_2 other => exact nomatch scans.symm.trans other
  case h_3 text' turn =>
    obtain rfl := Turn.scans.inj (scans.symm.trans turn)
    rfl

end Turns

end LoxScan.Prompt
