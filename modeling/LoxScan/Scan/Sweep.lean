import LoxScan.Diagnostic.Reporter
import LoxScan.Log.Event
import LoxScan.Text.Cursor

/-!
# Sweeps

A scan in one pass over the bytes of a text. A cursor stands at the byte that is read next, and each
turn reads one element, from its first byte on: that byte decides which rule applies, and a class of
bytes how far it goes. A token is kept and a fault is reported as soon as it is found, and both are
logged. The line and where it begins are carried along; they change where a line feed is passed,
alone or in a string.

The ends of comments and strings are searched for byte by byte. This stands for every exact search,
since they all move the cursor alike (`Cursor.eatUntilNewlineBy_eq`, `Cursor.eatUntilQuoteBy_eq`).

Some of what a turn does has a result only under a condition: a text can be cut out between
characters only, bytes can be looked through only from within the text, the distance from a line's
start must not be negative, and a token must carry a value exactly if its kind has one. Each such
condition is a `Demand`, made right before what needs it, and a sweep ends with the first one that
is not met.

* **`moves_turn`**: whatever state it starts from, a turn that comes to its end has moved the cursor
  on, which is why a sweep ends.
-/

namespace LoxScan

-- ── Classes of bytes ────────────────

namespace Byte

/-- The digits. -/
def isDigit (b : UInt8) : Bool :=
  decide (48 ≤ b) && decide (b ≤ 57)

/-- The letters and the underscore. -/
def isWordStart (b : UInt8) : Bool :=
  decide (97 ≤ b) && decide (b ≤ 122) || decide (65 ≤ b) && decide (b ≤ 90) || b == 95

/-- The letters, the digits and the underscore. -/
def isWordRest (b : UInt8) : Bool :=
  isWordStart b || isDigit b

/-- The bytes of a character after its first one. -/
def isContinuation (b : UInt8) : Bool :=
  b &&& 0xC0 == 0x80

/-- The blanks but the line feed. -/
def isBlank (b : UInt8) : Bool :=
  b == 32 || b == 13 || b == 9

end Byte

/-- The punctuator that one byte spells. -/
def Punctuator.ofByte? (b : UInt8) : Option Punctuator :=
  if b < 128 then ofChar? (Char.ofNat b.toNat) else none

-- ── Demands ─────────────────────────

/-- What must be so for the next operation to have a result. -/
inductive Demand
  /-- There is a text between two offsets. -/
  | slice (start stop : Nat)
  /-- An offset is not before the start of its line. -/
  | column (lineStart offset : Nat)
  /-- There are bytes to look through from an offset on, be it none. -/
  | search (offset : Nat)
  /-- A kind and a value go together. -/
  | token (kind : Kind) (literal : Option Literal)
deriving DecidableEq

/-- Whether a demand is met in a text. -/
def Demand.Met (source : List Char) : Demand → Prop
  | slice start stop =>
    start ≤ stop ∧ stop ≤ Utf8.byteLength source ∧
      Utf8.Boundary source start ∧ Utf8.Boundary source stop
  | column lineStart offset => lineStart ≤ offset
  | search offset => offset ≤ Utf8.byteLength source
  | token kind literal => kind.Carries literal

instance (source : List Char) (d : Demand) : Decidable (d.Met source) :=
  match d with
  | .slice .. => inferInstanceAs (Decidable (_ ∧ _ ∧ _ ∧ _))
  | .column .. => inferInstanceAs (Decidable (_ ≤ _))
  | .search .. => inferInstanceAs (Decidable (_ ≤ _))
  | .token kind literal => inferInstanceAs (Decidable (kind.Carries literal))

-- ── What a sweep has told ───────────

/-- The tokens so far, the number of faults, the reporter that was told of them, and the log. -/
structure Told (ρ : Type) where
  tokens : Array Token := #[]
  faults : Nat := 0
  reporter : ρ
  events : Array Event := #[]

namespace Told

variable {ρ : Type} [Reporter ρ]

/-- Keeps a token, or reports and counts a fault, and logs it. -/
def add (told : Told ρ) (found : Finding) : Told ρ :=
  match found with
  | .token t => { told with tokens := told.tokens.push t, events := told.events.push found.event }
  | .fault f =>
    { told with
      faults := told.faults + 1
      reporter := Reporter.report told.reporter f.toDiagnostic
      events := told.events.push found.event }

/-- Adds the token that marks the end of the text, and logs the counts. -/
def finish (told : Told ρ) (line : Word) (offset : Nat) : Told ρ :=
  { told with
    tokens := told.tokens.push (Token.eof line (Span.ofRange offset offset).start)
    events := told.events.push (.scanComplete (told.tokens.size + 1) told.faults line) }

end Told

/-- What there is to tell of a scan, the marks around it in the log included. -/
def Scan.told {ρ : Type} [Reporter ρ] (s : Scan) (reporter : ρ) : Told ρ where
  tokens := s.tokens.toArray
  faults := s.faults.length
  reporter := Reporter.reportAll reporter s.diagnostics
  events := s.events.toArray

-- ── States ──────────────────────────

/-- Where a sweep stands: the cursor, the offset and line at which the element that is being read
begins, the line of the cursor and the offset at which that line begins, and what was told. -/
structure Sweep (ρ : Type) where
  cursor : Cursor
  start : Nat := 0
  startLine : Word := 1
  line : Word := 1
  lineStart : Nat := 0
  told : Told ρ

namespace Sweep

variable {ρ : Type} [Reporter ρ]

/-- A sweep at the start of a text. -/
def ofList (source : List Char) (reporter : ρ) : Sweep ρ :=
  { cursor := ⟨source, 0⟩, told := { reporter } }

/-- The byte range of the element that is being read. -/
def span (s : Sweep ρ) : Span :=
  Span.ofRange s.start s.cursor.position

/-- Goes on only if a demand is met. -/
def demand (s : Sweep ρ) (d : Demand) : Except Demand Unit :=
  if d.Met s.cursor.source then .ok () else .error d

/-- The text between two offsets. There is one, by the demand. -/
def slice (s : Sweep ρ) (start stop : Nat) : Except Demand (List Char) := do
  s.demand (.slice start stop)
  return (s.cursor.slice? start stop).getD []

/-- The text of the element that is being read. -/
def lexeme (s : Sweep ρ) : Except Demand (List Char) :=
  s.slice s.start s.cursor.position

/-- The column of an offset on the current line, counted from one. -/
def columnOf (s : Sweep ρ) (offset : Nat) : Except Demand Word := do
  s.demand (.column s.lineStart offset)
  return Word.saturate (offset - s.lineStart + 1)

/-- Keeps the element that is being read as a token. -/
def addToken (s : Sweep ρ) (kind : Kind) (literal : Option Literal) :
    Except Demand (Sweep ρ) := do
  let text ← s.lexeme
  s.demand (.token kind literal)
  return { s with
    told := s.told.add (.token ⟨kind, String.ofList text, literal, s.startLine, s.span⟩) }

/-- Reports the element that is being read, at a column of the current line. -/
def addFault (s : Sweep ρ) (cause : Fault.Cause) (offset : Nat) : Except Demand (Sweep ρ) := do
  let column ← s.columnOf offset
  return { s with told := s.told.add (.fault ⟨cause, s.line, column, s.span⟩) }

-- ── Elements, after their first byte ──

/-- Goes on after the byte of a punctuator: an equals sign makes some of them longer. -/
def punctuator (s : Sweep ρ) (p : Punctuator) : Except Demand (Sweep ρ) :=
  match p.withEqual? with
  | some longer =>
    if s.cursor.current = 61 then
      { s with cursor := s.cursor.advance }.addToken (.punctuator longer) none
    else s.addToken (.punctuator p) none
  | none => s.addToken (.punctuator p) none

/-- Goes on after a slash: a second one begins a comment, which leaves its line feed unread. -/
def slash (s : Sweep ρ) : Except Demand (Sweep ρ) :=
  if s.cursor.current = 47 then do
    s.demand (.search s.cursor.position)
    return { s with cursor := s.cursor.eatUntilNewline }
  else s.addToken (.punctuator .slash) none

/-- Goes on after a line feed: a new line begins. -/
def newline (s : Sweep ρ) : Sweep ρ :=
  { s with line := s.line.plus 1, lineStart := s.cursor.position }

/-- The state after the body of a string: the line feeds in it are passed all at once. -/
def afterBody (s : Sweep ρ) : Sweep ρ :=
  let (breaks, cursor) := s.cursor.eatUntilQuote
  { s with
    cursor
    line := s.line.plus breaks.count.toNat
    lineStart := breaks.lastLineStart.getD s.lineStart }

/-- Closes a string at the quote that is read next. Its value lies between the quotes; a cursor at
the very start, before which there is no offset, would not meet the demand, for the value begins
after it. -/
def closeString (s : Sweep ρ) : Except Demand (Sweep ρ) := do
  let closed := { s with cursor := s.cursor.advance }
  let value ← closed.slice (closed.start + 1) (closed.cursor.position - 1)
  closed.addToken .string (some (.string (String.ofList value)))

/-- Goes on after an opening quote, to the closing one or to the end of the text. -/
def string (s : Sweep ρ) : Except Demand (Sweep ρ) := do
  s.demand (.search s.cursor.position)
  let body := s.afterBody
  if body.cursor.isEof then body.addFault .unterminatedString body.cursor.position
  else body.closeString

/-- The cursor after the digits of a number, and after a point and more digits if those follow. -/
def afterNumber (c : Cursor) : Cursor :=
  let whole := c.eatWhile Byte.isDigit
  if whole.current = 46 && Byte.isDigit whole.peek then whole.advance.eatWhile Byte.isDigit
  else whole

/-- The value of a numeral: of the digits before the point and those after it, if there is one. -/
def valueOf (numeral : List Char) : Literal :=
  let whole := numeral.takeWhile Char.isDigit
  let fraction := (numeral.dropWhile Char.isDigit).drop 1
  .number (Decimal.ofDigits whole fraction).toDouble

/-- Goes on after the first digit of a number. -/
def number (s : Sweep ρ) : Except Demand (Sweep ρ) := do
  let read := { s with cursor := afterNumber s.cursor }
  let text ← read.lexeme
  read.addToken .number (some (valueOf text))

/-- Goes on after the first letter of a word. -/
def word (s : Sweep ρ) : Except Demand (Sweep ρ) := do
  let read := { s with cursor := s.cursor.eatWhile Byte.isWordRest }
  let text ← read.lexeme
  read.addToken (Kind.ofWord (String.ofList text)) none

/-- Goes on after a byte that begins nothing else: the other bytes of its character are passed. -/
def stray (s : Sweep ρ) : Except Demand (Sweep ρ) := do
  let read := { s with cursor := s.cursor.eatWhile Byte.isContinuation }
  let text ← read.lexeme
  read.addFault (.unexpectedCharacter (text.head?.getD Utf8.replacement)) read.start

-- ── Turns ───────────────────────────

/-- Goes on after the first byte of an element, which decides what it is. -/
def dispatch (s : Sweep ρ) (first : UInt8) : Except Demand (Sweep ρ) :=
  if first = 10 then .ok s.newline
  else if Byte.isBlank first then .ok s
  else if first = 34 then s.string
  else if Byte.isDigit first then s.number
  else if Byte.isWordStart first then s.word
  else if first = 47 then s.slash
  else
    match Punctuator.ofByte? first with
    | some p => s.punctuator p
    | none => s.stray

/-- The state after the first byte of an element: the element begins where the cursor stood. -/
def opened (s : Sweep ρ) : Sweep ρ :=
  { s with cursor := s.cursor.advance, start := s.cursor.position, startLine := s.line }

/-- Reads one element. -/
def turn (s : Sweep ρ) : Except Demand (Sweep ρ) :=
  s.opened.dispatch s.cursor.current

-- ── Every turn moves on ─────────────

section Moves

variable {s t : Sweep ρ}

/-- A result comes from a result of the first part. -/
theorem exists_of_bind_eq_ok {α β : Type} {x : Except Demand α}
    {f : α → Except Demand β} {b : β}
    (h : x >>= f = .ok b) : ∃ a, x = .ok a ∧ f a = .ok b := by
  cases x with
  | error d => exact nomatch h
  | ok a => exact ⟨a, rfl, h⟩

omit [Reporter ρ] in
theorem met_of_demand {d : Demand} {u : Unit} (h : s.demand d = .ok u) : d.Met s.cursor.source := by
  rw [demand] at h
  split at h
  case isTrue met => exact met
  case isFalse => exact nomatch h

theorem cursor_of_addToken {kind : Kind} {literal : Option Literal}
    (h : s.addToken kind literal = .ok t) : t.cursor = s.cursor := by
  obtain ⟨text, -, h⟩ := exists_of_bind_eq_ok h
  obtain ⟨-, -, h⟩ := exists_of_bind_eq_ok h
  cases h
  rfl

theorem cursor_of_addFault {cause : Fault.Cause} {offset : Nat}
    (h : s.addFault cause offset = .ok t) : t.cursor = s.cursor := by
  obtain ⟨column, -, h⟩ := exists_of_bind_eq_ok h
  cases h
  rfl

theorem follows_afterNumber (c : Cursor) : (afterNumber c).Follows c := by
  have digits := c.follows_eatWhile Byte.isDigit
  simp only [afterNumber]
  split
  case isTrue => exact ((Cursor.follows_eatWhile ..).trans (Cursor.follows_advance _)).trans digits
  case isFalse => exact digits

theorem follows_punctuator {p : Punctuator} (h : s.punctuator p = .ok t) :
    t.cursor.Follows s.cursor := by
  rw [punctuator] at h
  split at h
  case h_1 =>
    split at h
    case isTrue =>
      rw [cursor_of_addToken h]
      exact Cursor.follows_advance _
    case isFalse =>
      rw [cursor_of_addToken h]
      exact Cursor.Follows.refl _
  case h_2 =>
    rw [cursor_of_addToken h]
    exact Cursor.Follows.refl _

theorem follows_slash (h : s.slash = .ok t) : t.cursor.Follows s.cursor := by
  rw [slash] at h
  split at h
  case isTrue =>
    obtain ⟨_, demanded, h⟩ := exists_of_bind_eq_ok h
    cases h
    have within : s.cursor.Within := (Cursor.within_iff s.cursor).2 (met_of_demand demanded)
    exact Cursor.follows_eatUntilNewlineBy within _
  case isFalse =>
    rw [cursor_of_addToken h]
    exact Cursor.Follows.refl _

theorem follows_string (h : s.string = .ok t) : t.cursor.Follows s.cursor := by
  obtain ⟨-, -, h⟩ := exists_of_bind_eq_ok h
  have body : s.afterBody.cursor.Follows s.cursor := s.cursor.follows_eatUntilQuoteBy _
  dsimp only at h
  split at h
  case isTrue =>
    rw [cursor_of_addFault h]
    exact body
  case isFalse =>
    obtain ⟨value, -, h⟩ := exists_of_bind_eq_ok h
    rw [cursor_of_addToken h]
    exact (Cursor.follows_advance _).trans body

theorem follows_number (h : s.number = .ok t) : t.cursor.Follows s.cursor := by
  obtain ⟨text, -, h⟩ := exists_of_bind_eq_ok h
  rw [cursor_of_addToken h]
  exact follows_afterNumber _

theorem follows_word (h : s.word = .ok t) : t.cursor.Follows s.cursor := by
  obtain ⟨text, -, h⟩ := exists_of_bind_eq_ok h
  rw [cursor_of_addToken h]
  exact Cursor.follows_eatWhile ..

theorem follows_stray (h : s.stray = .ok t) : t.cursor.Follows s.cursor := by
  obtain ⟨text, -, h⟩ := exists_of_bind_eq_ok h
  rw [cursor_of_addFault h]
  exact Cursor.follows_eatWhile ..

theorem follows_dispatch {first : UInt8} (h : s.dispatch first = .ok t) :
    t.cursor.Follows s.cursor := by
  rw [dispatch] at h
  split at h
  case isTrue =>
    cases h
    exact Cursor.Follows.refl _
  case isFalse =>
    split at h
    case isTrue =>
      cases h
      exact Cursor.Follows.refl _
    case isFalse =>
      split at h
      case isTrue => exact follows_string h
      case isFalse =>
        split at h
        case isTrue => exact follows_number h
        case isFalse =>
          split at h
          case isTrue => exact follows_word h
          case isFalse =>
            split at h
            case isTrue => exact follows_slash h
            case isFalse =>
              split at h
              case h_1 => exact follows_punctuator h
              case h_2 => exact follows_stray h

/-- A turn that comes to its end has read at least the byte it began with. -/
theorem moves_turn (more : s.cursor.isEof = false) (h : s.turn = .ok t) :
    t.cursor.source = s.cursor.source ∧ s.cursor.position < t.cursor.position := by
  have follows : t.cursor.Follows s.cursor.advance := follows_dispatch h
  have first := s.cursor.position_advance more
  have later := follows.position
  exact ⟨follows.source.trans (s.cursor.follows_advance).source, by omega⟩

end Moves

-- ── Whole texts ─────────────────────

/-- Takes turns up to the end of the text. -/
def sweep (s : Sweep ρ) : Except Demand (Sweep ρ) :=
  if _ended : s.cursor.isEof = true then .ok s
  else
    match _taken : s.turn with
    | .ok next => sweep next
    | .error d => .error d
termination_by s.cursor.bytes.length - s.cursor.position
decreasing_by
  have more := Bool.eq_false_iff.2 _ended
  obtain ⟨source, moved⟩ := moves_turn more _taken
  simp only [Cursor.isEof, decide_eq_false_iff_not, Nat.not_le] at more
  rw [Cursor.bytes, source, ← Cursor.bytes]
  omega

/-- What a sweep over a text tells, the end of the text included. -/
def run (source : List Char) (reporter : ρ) : Except Demand (Told ρ) := do
  let done ← (ofList source reporter).sweep
  return done.told.finish done.line done.cursor.position

/-- The same with the marks around it in the log. -/
def lex (source : List Char) (reporter : ρ) : Except Demand (Told ρ) := do
  let told ← run source reporter
  return { told with
    events := #[.scanOpened (Utf8.byteLength source), .scanEntered] ++ told.events ++ #[.scanLeft] }

theorem sweep_of_isEof {s : Sweep ρ} (h : s.cursor.isEof = true) : s.sweep = .ok s := by
  rw [sweep, dif_pos h]

theorem sweep_of_turn {s t : Sweep ρ} (more : s.cursor.isEof = false) (h : s.turn = .ok t) :
    s.sweep = t.sweep := by
  rw [sweep, dif_neg (by rw [more]; exact Bool.false_ne_true)]
  split
  case h_1 next turned =>
    rw [h] at turned
    cases turned
    rfl
  case h_2 d stopped =>
    rw [h] at stopped
    exact nomatch stopped

/-- The states in which the turns of a sweep begin, and the one in which it ends. -/
inductive Reached (source : List Char) (reporter : ρ) : Sweep ρ → Prop
  | start : Reached source reporter (ofList source reporter)
  | turn {s t : Sweep ρ} : Reached source reporter s → s.cursor.isEof = false →
      s.turn = .ok t → Reached source reporter t

end Sweep

end LoxScan
