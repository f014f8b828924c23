import LoxScan.Text.ByteSearch
import LoxScan.Text.Utf8
import LoxScan.Word

/-!
# A byte cursor over a text

A cursor stands at a byte of a text and moves forward over its bytes. Past the end it reads a zero
byte and stands still; `isEof` tells that zero from one in the text. It may well stand inside a
character. Text can be cut out only between characters, so a cut whose bounds are out of order, out
of the text or inside a character gives nothing (`Cursor.slice?`).

* **`splitAt?_eq_some_iff`**: a text splits at a byte offset exactly if it is made of two texts of
  which the first has that many bytes.
* **`isSome_slice?_iff`**: so there is a text between two offsets exactly if they are in order,
  within the text and between its characters (`Boundary`). It has the bytes between them
  (`encode_of_slice?`).
* **`eatUntilNewlineBy_eq`**, **`eatUntilQuoteBy_eq`**: by whatever exact search a byte is looked
  for, the cursor moves to the same place.
* **`eatUntilNewline_eq`**, **`eatUntilQuote_eq`**: to search for a byte is to move over all others.
* **`within_advance`**, **`within_eatWhile`**: every move keeps the cursor within its text.
* **`follows_advance`**, **`follows_eatWhile`**: no move goes back.
-/

namespace LoxScan

-- ── Cutting a text at a byte ────────

namespace Utf8

/-- Splits a text at a byte offset, if one character ends there and the next begins. -/
def splitAt? : Nat → List Char → Option (List Char × List Char)
  | 0, text => some ([], text)
  | _ + 1, [] => none
  | n + 1, c :: rest =>
    if c.utf8Size ≤ n + 1 then
      (splitAt? (n + 1 - c.utf8Size) rest).map fun parts => (c :: parts.1, parts.2)
    else none

/-- The text between two byte offsets, if both lie between characters and are in order. -/
def slice? (text : List Char) (start stop : Nat) : Option (List Char) :=
  if start ≤ stop then
    (splitAt? stop text).bind fun parts => (splitAt? start parts.1).map (·.2)
  else none

theorem splitAt?_append (before after : List Char) :
    splitAt? (byteLength before) (before ++ after) = some (before, after) := by
  induction before with
  | nil => rw [byteLength_nil, List.nil_append, splitAt?]
  | cons c before ih =>
      have positive := Char.utf8Size_pos c
      obtain ⟨n, size⟩ : ∃ n, byteLength (c :: before) = n + 1 :=
        ⟨byteLength (c :: before) - 1, by rw [byteLength_cons]; omega⟩
      rw [size, List.cons_append, splitAt?]
      rw [byteLength_cons] at size
      rw [if_pos (by omega), show n + 1 - c.utf8Size = byteLength before by omega, ih]
      rfl

theorem append_of_splitAt? {n : Nat} {text before after : List Char}
    (h : splitAt? n text = some (before, after)) :
    text = before ++ after ∧ byteLength before = n := by
  fun_induction splitAt? n text generalizing before after with
  | case1 text =>
      obtain ⟨rfl, rfl⟩ := Prod.mk.inj (Option.some.inj h)
      exact ⟨rfl, rfl⟩
  | case2 => exact nomatch h
  | case3 n c rest fits ih =>
      obtain ⟨parts, cut, split⟩ := Option.map_eq_some_iff.1 h
      obtain ⟨rfl, rfl⟩ := Prod.mk.inj split
      obtain ⟨whole, size⟩ := ih cut
      refine ⟨congrArg (c :: ·) whole, ?_⟩
      rw [byteLength_cons, size]
      omega
  | case4 => exact nomatch h

/-- A text splits at an offset exactly if a first part of that length and a second make it up. -/
theorem splitAt?_eq_some_iff {n : Nat} {text before after : List Char} :
    splitAt? n text = some (before, after) ↔
      text = before ++ after ∧ byteLength before = n := by
  constructor
  · exact append_of_splitAt?
  · rintro ⟨rfl, rfl⟩
    exact splitAt?_append before after

/-- Of two first parts of a text, the one with fewer bytes is a first part of the other. -/
theorem exists_append_of_byteLength_le {x y z w : List Char} (whole : x ++ y = z ++ w)
    (fits : byteLength z ≤ byteLength x) : ∃ left, x = z ++ left ∧ w = left ++ y := by
  rcases List.append_eq_append_iff.1 whole with ⟨beyond, rfl, rest⟩ | ⟨left, rfl, rest⟩
  · have nothing : beyond = [] := by
      cases beyond with
      | nil => rfl
      | cons d beyond =>
          have positive := Char.utf8Size_pos d
          rw [byteLength_append, byteLength_cons] at fits
          omega
    subst nothing
    refine ⟨[], ?_, rest.symm⟩
    rw [List.append_nil, List.append_nil]
  · exact ⟨left, rfl, rest⟩

/-- An offset lies between two characters of a text, or at one of its ends. -/
def Boundary (text : List Char) (n : Nat) : Prop :=
  (splitAt? n text).isSome = true

instance (text : List Char) (n : Nat) : Decidable (Boundary text n) :=
  inferInstanceAs (Decidable (_ = true))

theorem boundary_iff {text : List Char} {n : Nat} :
    Boundary text n ↔ ∃ before after, text = before ++ after ∧ byteLength before = n := by
  rw [Boundary, Option.isSome_iff_exists]
  constructor
  · rintro ⟨⟨before, after⟩, split⟩
    exact ⟨before, after, splitAt?_eq_some_iff.1 split⟩
  · rintro ⟨before, after, split⟩
    exact ⟨(before, after), splitAt?_eq_some_iff.2 split⟩

theorem boundary_append (before after : List Char) :
    Boundary (before ++ after) (byteLength before) :=
  boundary_iff.2 ⟨before, after, rfl, rfl⟩

theorem slice?_append (before inside after : List Char) :
    slice? (before ++ inside ++ after) (byteLength before) (byteLength (before ++ inside)) =
      some inside := by
  rw [slice?, if_pos (by rw [byteLength_append]; omega), splitAt?_append]
  show Option.map (·.2) (splitAt? (byteLength before) (before ++ inside)) = _
  rw [splitAt?_append]
  rfl

/-- The text between two offsets is what is left of the whole without the bytes before the one and
those after the other. -/
theorem slice?_eq_some_iff {text inside : List Char} {start stop : Nat} :
    slice? text start stop = some inside ↔ ∃ before after, text = before ++ inside ++ after ∧
      byteLength before = start ∧ byteLength (before ++ inside) = stop := by
  constructor
  · intro cut
    rw [slice?] at cut
    split at cut
    case isTrue =>
      obtain ⟨⟨upTo, after⟩, atStop, cut⟩ := Option.bind_eq_some_iff.1 cut
      obtain ⟨⟨before, inner⟩, atStart, inner_eq⟩ := Option.map_eq_some_iff.1 cut
      obtain rfl : inner = inside := inner_eq
      obtain ⟨rfl, rfl⟩ := splitAt?_eq_some_iff.1 atStop
      obtain ⟨rfl, rfl⟩ := splitAt?_eq_some_iff.1 atStart
      exact ⟨before, after, rfl, rfl, rfl⟩
    case isFalse => exact nomatch cut
  · rintro ⟨before, after, rfl, rfl, rfl⟩
    exact slice?_append before inside after

/-- There is a text between two offsets exactly if they are in order, within the text, and between
characters. -/
theorem isSome_slice?_iff {text : List Char} {start stop : Nat} :
    (slice? text start stop).isSome = true ↔
      start ≤ stop ∧ stop ≤ byteLength text ∧ Boundary text start ∧
        Boundary text stop := by
  constructor
  · intro found
    obtain ⟨inside, cut⟩ := Option.isSome_iff_exists.1 found
    obtain ⟨before, after, rfl, rfl, rfl⟩ := slice?_eq_some_iff.1 cut
    refine ⟨?_, ?_, ?_, boundary_append _ _⟩
    · rw [byteLength_append]
      exact Nat.le_add_right ..
    · rw [byteLength_append (before ++ inside)]
      exact Nat.le_add_right ..
    · rw [List.append_assoc]
      exact boundary_append _ _
  · rintro ⟨order, -, atStart, atStop⟩
    obtain ⟨before, rest, whole, rfl⟩ := boundary_iff.1 atStart
    obtain ⟨upTo, after, rfl, rfl⟩ := boundary_iff.1 atStop
    obtain ⟨inside, rfl, -⟩ := exists_append_of_byteLength_le whole order
    rw [slice?_append]
    rfl

theorem slice?_eq_none_iff {text : List Char} {start stop : Nat} :
    slice? text start stop = none ↔
      stop < start ∨ byteLength text < stop ∨ ¬ Boundary text start ∨
        ¬ Boundary text stop := by
  rw [← Option.not_isSome_iff_eq_none, isSome_slice?_iff, Decidable.not_and_iff_not_or_not,
    Decidable.not_and_iff_not_or_not, Decidable.not_and_iff_not_or_not, Nat.not_le, Nat.not_le]

/-- The text between two offsets has the bytes between them. -/
theorem encode_of_slice? {text inside : List Char} {start stop : Nat}
    (cut : slice? text start stop = some inside) :
    encode inside = ((encode text).take stop).drop start := by
  obtain ⟨before, after, rfl, rfl, rfl⟩ := slice?_eq_some_iff.1 cut
  rw [encode_append (before ++ inside), List.take_left' (length_encode _), encode_append,
    List.drop_left' (length_encode before)]

end Utf8

-- ── Cursors ─────────────────────────

/-- A text and the offset of the next unread byte. -/
structure Cursor where
  source : List Char
  position : Nat
deriving DecidableEq

/-- The line feeds that were passed: how many, and the offset after the last of them. -/
structure LineBreaks where
  count : Word
  lastLineStart : Option Nat
deriving DecidableEq

namespace Cursor

/-- A cursor at the start of a text. -/
def ofString (source : String) : Cursor :=
  ⟨source.toList, 0⟩

/-- The bytes of the text. -/
def bytes (c : Cursor) : List UInt8 :=
  Utf8.encode c.source

/-- The bytes that are not read yet. -/
def remaining (c : Cursor) : List UInt8 :=
  c.bytes.drop c.position

/-- The byte at an offset, zero past the end. -/
def byteAt (c : Cursor) (offset : Nat) : UInt8 :=
  (c.bytes[offset]?).getD 0

/-- The next unread byte, zero at the end. -/
def current (c : Cursor) : UInt8 :=
  c.byteAt c.position

/-- The byte after the next unread one, zero past the end. -/
def peek (c : Cursor) : UInt8 :=
  c.byteAt (c.position + 1)

/-- Whether all bytes are read. -/
def isEof (c : Cursor) : Bool :=
  decide (c.bytes.length ≤ c.position)

/-- Moves over one byte. -/
def advance (c : Cursor) : Cursor :=
  if c.isEof then c else { c with position := c.position + 1 }

/-- Reads one byte and moves over it. -/
def bump (c : Cursor) : UInt8 × Cursor :=
  (c.current, c.advance)

/-- Moves over bytes of a class. -/
def eatWhile (c : Cursor) (p : UInt8 → Bool) : Cursor :=
  { c with position := c.position + (c.remaining.takeWhile p).length }

/-- Searches for the next line feed and moves there, or to the end if there is none. -/
def eatUntilNewlineBy (find : ByteSearch) (c : Cursor) : Cursor :=
  match find.first? 10 c.remaining with
  | some offset => { c with position := c.position + offset }
  | none => { c with position := c.bytes.length }

/-- The line feeds in a row of bytes that begins at an offset. -/
def lineBreaks (find : ByteSearch) (offset : Nat) (skipped : List UInt8) : LineBreaks where
  count := Word.saturate (find.all 10 skipped).length
  lastLineStart := (find.last? 10 skipped).map fun i => offset + i + 1

/-- The bytes before the next quote, or all that are left if there is none. -/
def beforeQuote (find : ByteSearch) (c : Cursor) : List UInt8 :=
  match find.first? 34 c.remaining with
  | some offset => c.remaining.take offset
  | none => c.remaining

/-- Searches for the next quote and moves there, or to the end if there is none, and searches what
lies on the way for line feeds. -/
def eatUntilQuoteBy (find : ByteSearch) (c : Cursor) : LineBreaks × Cursor :=
  let skipped := c.beforeQuote find
  (lineBreaks find c.position skipped, { c with position := c.position + skipped.length })

/-- Moves to the next line feed, or to the end if there is none. -/
def eatUntilNewline (c : Cursor) : Cursor :=
  c.eatUntilNewlineBy .byByte

/-- Moves to the next quote, or to the end if there is none, and counts the line feeds on the
way. -/
def eatUntilQuote (c : Cursor) : LineBreaks × Cursor :=
  c.eatUntilQuoteBy .byByte

/-- The text between two offsets. -/
def slice? (c : Cursor) (start stop : Nat) : Option (List Char) :=
  Utf8.slice? c.source start stop

/-- The text from an offset to the cursor. -/
def sliceFrom? (c : Cursor) (start : Nat) : Option (List Char) :=
  c.slice? start c.position

/-- A cursor stands in the same text as another, at the same byte or a later one. -/
structure Follows (c d : Cursor) : Prop where
  source : c.source = d.source
  position : d.position ≤ c.position

/-- A cursor that stands within its text. -/
def Within (c : Cursor) : Prop :=
  c.position ≤ c.bytes.length

instance (c : Cursor) : Decidable c.Within :=
  inferInstanceAs (Decidable (_ ≤ _))

@[simp] theorem bytes_eatWhile (c : Cursor) (p : UInt8 → Bool) : (c.eatWhile p).bytes = c.bytes :=
  rfl

@[simp] theorem bytes_advance (c : Cursor) : c.advance.bytes = c.bytes := by
  rw [advance]
  split
  case isTrue => rfl
  case isFalse => rfl

theorem Follows.refl (c : Cursor) : c.Follows c :=
  ⟨rfl, Nat.le_refl _⟩

theorem Follows.trans {c d e : Cursor} (h : c.Follows d) (later : d.Follows e) : c.Follows e :=
  ⟨h.source.trans later.source, Nat.le_trans later.position h.position⟩

theorem follows_advance (c : Cursor) : c.advance.Follows c := by
  rw [advance]
  split
  case isTrue => exact Follows.refl c
  case isFalse => exact ⟨rfl, Nat.le_succ _⟩

theorem follows_eatWhile (c : Cursor) (p : UInt8 → Bool) : (c.eatWhile p).Follows c :=
  ⟨rfl, Nat.le_add_right ..⟩

theorem follows_eatUntilNewlineBy {c : Cursor} (h : c.Within) (find : ByteSearch) :
    (c.eatUntilNewlineBy find).Follows c := by
  rw [eatUntilNewlineBy]
  split
  case h_1 => exact ⟨rfl, Nat.le_add_right ..⟩
  case h_2 => exact ⟨rfl, h⟩

theorem follows_eatUntilQuoteBy (c : Cursor) (find : ByteSearch) :
    (c.eatUntilQuoteBy find).2.Follows c :=
  ⟨rfl, Nat.le_add_right ..⟩

theorem position_advance {c : Cursor} (more : c.isEof = false) :
    c.advance.position = c.position + 1 := by
  rw [advance, more]
  rfl

theorem within_iff (c : Cursor) : c.Within ↔ c.position ≤ Utf8.byteLength c.source := by
  rw [Within, bytes, Utf8.length_encode]

theorem within_ofString (source : String) : (ofString source).Within :=
  Nat.zero_le _

theorem within_advance {c : Cursor} (h : c.Within) : c.advance.Within := by
  rw [advance]
  split
  case isTrue => exact h
  case isFalse more =>
      simp only [isEof, decide_eq_true_eq, Nat.not_le] at more
      exact more

theorem within_eatWhile {c : Cursor} (h : c.Within) (p : UInt8 → Bool) :
    (c.eatWhile p).Within := by
  have short := (List.takeWhile_prefix p (l := c.remaining)).length_le
  have left : c.remaining.length = c.bytes.length - c.position := List.length_drop ..
  have room : c.position ≤ c.bytes.length := h
  show c.position + (c.remaining.takeWhile p).length ≤ c.bytes.length
  omega

/-- Every exact search for a line feed moves the cursor to the same place. -/
theorem eatUntilNewlineBy_eq {find : ByteSearch} (sound : find.Exact) (c : Cursor) :
    c.eatUntilNewlineBy find = c.eatUntilNewline := by
  rw [eatUntilNewline, sound.unique ByteSearch.exact_byByte]

/-- Every exact search for a quote moves the cursor to the same place and finds the same line feeds
on the way. -/
theorem eatUntilQuoteBy_eq {find : ByteSearch} (sound : find.Exact) (c : Cursor) :
    c.eatUntilQuoteBy find = c.eatUntilQuote := by
  rw [eatUntilQuote, sound.unique ByteSearch.exact_byByte]

/-- Searching for a line feed is moving over all other bytes. -/
theorem eatUntilNewline_eq {c : Cursor} (h : c.Within) :
    c.eatUntilNewline = c.eatWhile (· ≠ 10) := by
  have left : c.remaining.length = c.bytes.length - c.position := List.length_drop ..
  have room : c.position ≤ c.bytes.length := h
  rw [eatUntilNewline, eatUntilNewlineBy, eatWhile]
  split
  case h_1 offset found =>
    obtain ⟨taken, short⟩ := ByteSearch.takeWhile_of_first? found
    rw [taken, List.length_take_of_le short]
  case h_2 missing =>
    rw [ByteSearch.takeWhile_of_first?_eq_none missing, left, Nat.add_sub_cancel' room]

/-- Searching for a quote is moving over all other bytes. -/
theorem eatUntilQuote_eq (c : Cursor) : c.eatUntilQuote =
    (lineBreaks .byByte c.position (c.remaining.takeWhile (· ≠ 34)),
      c.eatWhile (· ≠ 34)) := by
  have skipped : c.beforeQuote .byByte = c.remaining.takeWhile (· ≠ 34) := by
    rw [beforeQuote]
    split
    case h_1 offset found => exact (ByteSearch.takeWhile_of_first? found).1.symm
    case h_2 missing => exact (ByteSearch.takeWhile_of_first?_eq_none missing).symm
  rw [eatUntilQuote, eatUntilQuoteBy, skipped]
  rfl

end Cursor

end LoxScan
