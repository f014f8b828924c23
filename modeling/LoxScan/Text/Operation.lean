import LoxScan.Text.Cursor

/-!
# Operations on cursors

What can be done to a cursor, one operation after another. It can be read from, moved over one byte
or over bytes of any class, moved to the next line feed or quote, and text can be cut out of what it
stands in. A cut may fail, and so may a search, for a cursor that is past the end has no bytes left
to search, not even none. An operation that fails leaves the cursor as it is, and the next one goes
on from there.

* **`follows_after`**: no row of operations moves a cursor back.
* **`within_after`**: none moves it out of its text, so no search fails.
-/

namespace LoxScan.Cursor

/-- What can be done to a cursor. -/
inductive Operation
  /-- Looks at the next unread byte. -/
  | current
  /-- Looks at the byte after it. -/
  | peek
  /-- Reads a byte and moves over it. -/
  | bump
  /-- Moves over a byte. -/
  | advance
  /-- Cuts out the text between two offsets. -/
  | slice (start stop : Nat)
  /-- Cuts out the text from an offset to the cursor. -/
  | sliceFrom (start : Nat)
  /-- Moves over bytes of a class. -/
  | eatWhile (p : UInt8 → Bool)
  /-- Moves to the next line feed. -/
  | eatUntilNewline
  /-- Moves to the next quote. -/
  | eatUntilQuote

/-- What an operation gives back. -/
inductive Reading
  | nothing
  | byte (b : UInt8)
  | text (inside : List Char)
  | breaks (passed : LineBreaks)
deriving DecidableEq

/-- Does an operation. One that gives nothing back, not even `nothing`, has failed. -/
def step (find : ByteSearch) (c : Cursor) : Operation → Option Reading × Cursor
  | .current => (some (.byte c.current), c)
  | .peek => (some (.byte c.peek), c)
  | .bump => (some (.byte c.bump.1), c.bump.2)
  | .advance => (some .nothing, c.advance)
  | .slice start stop => ((c.slice? start stop).map .text, c)
  | .sliceFrom start => ((c.sliceFrom? start).map .text, c)
  | .eatWhile p => (some .nothing, c.eatWhile p)
  | .eatUntilNewline =>
    if c.Within then (some .nothing, c.eatUntilNewlineBy find) else (none, c)
  | .eatUntilQuote =>
    if c.Within then
      let (passed, next) := c.eatUntilQuoteBy find
      (some (.breaks passed), next)
    else (none, c)

/-- The cursor after a row of operations, whichever of them fail. -/
def after (find : ByteSearch) (c : Cursor) (ops : List Operation) : Cursor :=
  ops.foldl (fun c op => (c.step find op).2) c

@[simp] theorem after_nil (find : ByteSearch) (c : Cursor) : c.after find [] = c :=
  rfl

@[simp] theorem after_cons (find : ByteSearch) (c : Cursor) (op : Operation)
    (ops : List Operation) :
    c.after find (op :: ops) = (c.step find op).2.after find ops :=
  rfl

theorem after_append (find : ByteSearch) (c : Cursor) (ops later : List Operation) :
    c.after find (ops ++ later) = (c.after find ops).after find later :=
  List.foldl_append

-- ── No way back ─────────────────────

/-- **One operation.** It does not move a cursor back. -/
theorem follows_step (find : ByteSearch) (c : Cursor) (op : Operation) :
    (c.step find op).2.Follows c := by
  cases op with
  | current => exact Follows.refl c
  | peek => exact Follows.refl c
  | bump => exact c.follows_advance
  | advance => exact c.follows_advance
  | slice start stop => exact Follows.refl c
  | sliceFrom start => exact Follows.refl c
  | eatWhile p => exact c.follows_eatWhile p
  | eatUntilNewline =>
      rw [step]
      split
      case isTrue within => exact follows_eatUntilNewlineBy within find
      case isFalse => exact Follows.refl c
  | eatUntilQuote =>
      rw [step]
      split
      case isTrue => exact c.follows_eatUntilQuoteBy find
      case isFalse => exact Follows.refl c

/-- **Any operations.** They do not move a cursor back. -/
theorem follows_after (find : ByteSearch) (c : Cursor) (ops : List Operation) :
    (c.after find ops).Follows c := by
  induction ops generalizing c with
  | nil => exact Follows.refl c
  | cons op ops ih =>
      rw [after_cons]
      exact (ih (c.step find op).2).trans (follows_step find c op)

-- ── No way out ──────────────────────

section Within

variable {c : Cursor}

theorem step_eatUntilNewline (h : c.Within) :
    c.step .byByte .eatUntilNewline = (some .nothing, c.eatWhile (· ≠ 10)) := by
  rw [← eatUntilNewline_eq h]
  exact if_pos h

theorem step_eatUntilQuote (h : c.Within) :
    c.step .byByte .eatUntilQuote =
      (some (.breaks (lineBreaks .byByte c.position (c.remaining.takeWhile (· ≠ 34)))),
        c.eatWhile (· ≠ 34)) := by
  rw [step, if_pos h, ← eatUntilQuote, eatUntilQuote_eq]

/-- **One operation.** It does not move a cursor out of its text. -/
theorem within_step (h : c.Within) (op : Operation) : (c.step .byByte op).2.Within := by
  cases op with
  | current => exact h
  | peek => exact h
  | bump => exact within_advance h
  | advance => exact within_advance h
  | slice start stop => exact h
  | sliceFrom start => exact h
  | eatWhile p => exact within_eatWhile h p
  | eatUntilNewline =>
      rw [step_eatUntilNewline h]
      exact within_eatWhile h _
  | eatUntilQuote =>
      rw [step_eatUntilQuote h]
      exact within_eatWhile h _

/-- **Any operations.** They do not move a cursor out of its text. -/
theorem within_after (h : c.Within) (ops : List Operation) : (c.after .byByte ops).Within := by
  induction ops generalizing c with
  | nil => exact h
  | cons op ops ih =>
      rw [after_cons]
      exact ih (within_step h op)

end Within

end LoxScan.Cursor
