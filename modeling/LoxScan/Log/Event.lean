import LoxScan.Scan.Basic

/-!
# Events

What a run logs, as values. An event carries what it tells and nothing of how it is shown; a scan's
events are read off its findings, so they agree with its tokens and faults by construction. An entry
is what a log is given of an event: level, target, a title, named details in a fixed order, and
where it stands towards a scan. Which entries a log shows, and how, is up to the logger.

* **`Scan.events`**: the span opens, every token and every fault follows in source order, and the
  counts close it. The end token is counted but not shown.
* **`Event.entry?`**: the entry of an event. The marks around a scan have none.
-/

namespace LoxScan

-- ── Events ──────────────────────────

/-- Something that happened in a run. -/
inductive Event
  /-- A scan of a text of so many bytes begins. -/
  | scanOpened (bytes : Nat)
  /-- The events that follow belong to the scan. -/
  | scanEntered
  | token (kind : Kind) (lexeme : String) (line : Word)
  | fault (f : Fault)
  /-- The end of the text was reached, on a given line. -/
  | scanComplete (tokens faults : Nat) (lines : Word)
  /-- The events that follow do not belong to the scan. -/
  | scanLeft
  | scriptStarted (path : String)
  /-- Faults were shown, and so many more were not. -/
  | faultsShown (shown suppressed : Nat)
  | promptClosed
deriving DecidableEq

/-- The event of a finding. -/
def Finding.event : Finding → Event
  | token t => .token t.kind t.lexeme t.line
  | fault f => .fault f

namespace Scan

/-- The events of the scan itself. -/
def innerEvents (s : Scan) : List Event :=
  s.findings.map Finding.event ++
    [.scanComplete s.tokens.length s.faults.length (Word.saturate s.finish.line)]

/-- The events of a scan with the marks around it. -/
def events (s : Scan) : List Event :=
  .scanOpened s.finish.offset :: .scanEntered :: s.innerEvents ++ [.scanLeft]

end Scan

-- ── Entries ─────────────────────────

/-- The levels at which a run logs. -/
inductive Level
  | trace | debug
deriving DecidableEq

/-- The value of a detail: a count, a text as it stands, or a text shown between quotes. -/
inductive Detail
  | count (n : Nat)
  | plain (s : String)
  | quoted (s : String)
deriving DecidableEq

/-- Where an entry stands towards a scan. -/
inductive Standing
  | opens
  | within
  | outside
deriving DecidableEq

/-- An event as a log is given it. -/
structure Entry where
  level : Level
  target : String
  title : String
  details : List (String × Detail)
  standing : Standing
deriving DecidableEq

namespace Entry

/-- The entry that opens a scan. -/
def ofScan (details : List (String × Detail)) : Entry :=
  ⟨.debug, "lox_lexer", "lex", details, .opens⟩

/-- An entry within a scan. -/
def withinScan (level : Level) (title : String) (details : List (String × Detail)) : Entry :=
  ⟨level, "lox_lexer::scanner", title, details, .within⟩

/-- An entry of what happens around scans. -/
def ofRun (title : String) (details : List (String × Detail)) : Entry :=
  ⟨.debug, "loxc::driver", title, details, .outside⟩

end Entry

/-- The entry of an event. The marks around a scan have none. -/
def Event.entry? : Event → Option Entry
  | scanOpened bytes => some (.ofScan [("len", .count bytes)])
  | scanEntered => none
  | token kind lexeme line =>
    some (.withinScan .trace "token"
      [("kind", .plain kind.name), ("lexeme", .quoted lexeme), ("line", .count line.toNat)])
  | fault f => some (.withinScan .debug "lex error" [("error", .plain f.text)])
  | scanComplete tokens faults lines =>
    some (.withinScan .debug "scan complete"
      [("tokens", .count tokens), ("errors", .count faults), ("lines", .count lines.toNat)])
  | scanLeft => none
  | scriptStarted path => some (.ofRun "running script" [("path", .plain path)])
  | faultsShown shown suppressed =>
    some (.ofRun "lexical errors reported"
      [("shown", .count shown), ("suppressed", .count suppressed)])
  | promptClosed => some (.ofRun "prompt closed" [])

-- ── Loggers ─────────────────────────

/-- What shows a log on the error stream: what it says when it is set up, and what it writes of an
entry, if it shows that. -/
structure Logger where
  opening : String
  text? : Entry → Option String

/-- What a logger writes of an event. -/
def Logger.line? (logger : Logger) (event : Event) : Option String :=
  event.entry?.bind logger.text?

end LoxScan
