import LoxScan.Proofs.Placement
import Mathlib.Data.List.Induction

/-!
# Lines and columns by bytes

A position is carried along by a scan, character by character. What it should be has a definition
that carries nothing along: the line of a byte offset is one more than the line feed bytes before
it, and the column one more than the bytes between the last of those and the offset. The two agree,
because no character but a line feed has that byte in its encoding.

So every line and column that a scan gives is a function of an offset and the bytes before it,
however blanks, comments and strings share the line feeds among them.

* **`toNat_eq_of_mem_utf8EncodeChar`**: a byte below 128 stands for itself alone.
* **`line_advance`**, **`column_advance`**: a carried position agrees with the bytes that it has
  passed.
* **`scan_positions`**: every position of a scan is the one that its offset has.
-/

namespace LoxScan

namespace Utf8

-- ── Line feeds in a row of bytes ────

/-- The line feeds in a row of bytes. -/
def lineFeeds (bytes : List UInt8) : Nat :=
  bytes.count 10

/-- The bytes after the last line feed. -/
def lastLineLength (bytes : List UInt8) : Nat :=
  (bytes.reverse.takeWhile (· ≠ 10)).length

/-- The line of a byte offset, counted from one. -/
def lineAt (bytes : List UInt8) (offset : Nat) : Nat :=
  1 + lineFeeds (bytes.take offset)

/-- The column of a byte offset, counted from one. -/
def columnAt (bytes : List UInt8) (offset : Nat) : Nat :=
  1 + lastLineLength (bytes.take offset)

theorem lineFeeds_append (a b : List UInt8) : lineFeeds (a ++ b) = lineFeeds a + lineFeeds b :=
  List.count_append

theorem lineFeeds_le_length (bytes : List UInt8) : lineFeeds bytes ≤ bytes.length :=
  List.count_le_length

theorem lastLineLength_le_length (bytes : List UInt8) : lastLineLength bytes ≤ bytes.length := by
  have short := (List.takeWhile_prefix (p := (· ≠ 10)) (l := bytes.reverse)).length_le
  rw [List.length_reverse] at short
  exact short

/-- Without a line feed at the back, the last line goes on. -/
theorem lastLineLength_append_of_not_mem {a b : List UInt8} (h : 10 ∉ b) :
    lastLineLength (a ++ b) = lastLineLength a + b.length := by
  have inside : ∀ x ∈ b.reverse, decide (x ≠ 10) = true := by
    intro x hx
    exact decide_eq_true (ne_of_mem_of_not_mem (List.mem_reverse.1 hx) h)
  rw [lastLineLength, List.reverse_append, List.takeWhile_append_of_pos inside, List.length_append,
    List.length_reverse, Nat.add_comm]
  rfl

theorem lastLineLength_concat_newline (a : List UInt8) : lastLineLength (a ++ [10]) = 0 := by
  rw [lastLineLength, List.reverse_append]
  rfl

-- ── Line feeds in an encoded text ───

/-- A byte below 128 is the encoding of the character with that number and part of no other. -/
theorem toNat_eq_of_mem_utf8EncodeChar {c : Char} {b : UInt8} (h : b ∈ String.utf8EncodeChar c)
    (ascii : b.toNat < 128) : c.toNat = b.toNat := by
  have value : c.toNat = c.val.toNat := rfl
  rw [String.utf8EncodeChar] at h
  split at h
  case isTrue small =>
      obtain rfl := List.mem_singleton.1 h
      rw [UInt8.toNat_ofNat'] at ascii ⊢
      omega
  case isFalse =>
      -- A longer encoding has its high bit set in every byte.
      exfalso
      split at h
      case isTrue =>
          simp only [List.mem_cons, List.not_mem_nil, or_false] at h
          rcases h with rfl | rfl <;> rw [UInt8.toNat_ofNat'] at ascii <;> omega
      case isFalse =>
          split at h
          case isTrue =>
              simp only [List.mem_cons, List.not_mem_nil, or_false] at h
              rcases h with rfl | rfl | rfl <;> rw [UInt8.toNat_ofNat'] at ascii <;> omega
          case isFalse =>
              simp only [List.mem_cons, List.not_mem_nil, or_false] at h
              rcases h with rfl | rfl | rfl | rfl <;> rw [UInt8.toNat_ofNat'] at ascii <;> omega

theorem newline_not_mem_utf8EncodeChar {c : Char} (h : c ≠ '\n') :
    10 ∉ String.utf8EncodeChar c := by
  intro found
  have value := toNat_eq_of_mem_utf8EncodeChar found (by decide)
  exact h (Char.toNat_inj.1 value)

end Utf8

namespace Position

open Utf8

-- ── Carried positions ───────────────

/-- A carried line counts the line feeds that were passed. -/
theorem line_advance (p : Position) (text : List Char) :
    (p.advance text).line = p.line + lineFeeds (encode text) := by
  induction text generalizing p with
  | nil => rfl
  | cons c text ih =>
      rw [advance_cons, ih, encode_cons, lineFeeds_append, next]
      by_cases h : c = '\n'
      · subst h
        show p.line + 1 + _ = p.line + (1 + _)
        omega
      · have flat : lineFeeds (String.utf8EncodeChar c) = 0 :=
          List.count_eq_zero.2 (newline_not_mem_utf8EncodeChar h)
        rw [if_neg h, flat, Nat.zero_add]

theorem column_advance (text : List Char) :
    (origin.advance text).column = 1 + lastLineLength (encode text) := by
  -- From the back, for the last line is what one more character changes.
  induction text using List.reverseRecOn with
  | nil => rfl
  | append_singleton text c ih =>
      have within : (origin.advance text).lineStart ≤ (origin.advance text).offset :=
        lineStart_le_offset (Nat.le_refl 0) text
      rw [advance_append, encode_append, encode_cons, encode_nil, List.append_nil]
      show ((origin.advance text).next c).column = _
      rw [column] at ih ⊢
      by_cases h : c = '\n'
      · subst h
        show (origin.advance text).offset + 1 - ((origin.advance text).offset + 1) + 1
          = 1 + lastLineLength (encode text ++ [10])
        rw [lastLineLength_concat_newline]
        omega
      · rw [lastLineLength_append_of_not_mem (newline_not_mem_utf8EncodeChar h),
          String.length_utf8EncodeChar, next, if_neg h]
        show (origin.advance text).offset + c.utf8Size - (origin.advance text).lineStart + 1 = _
        omega

/-- The position after a text has the line of its length, whatever follows. -/
theorem line_eq_lineAt (before after : List Char) :
    (origin.advance before).line = lineAt (encode (before ++ after)) (byteLength before) := by
  rw [line_advance, lineAt, encode_append, List.take_left' (length_encode before)]
  rfl

theorem column_eq_columnAt (before after : List Char) :
    (origin.advance before).column = columnAt (encode (before ++ after)) (byteLength before) := by
  rw [column_advance, columnAt, encode_append, List.take_left' (length_encode before)]

theorem line_le (text : List Char) : (origin.advance text).line ≤ byteLength text + 1 := by
  have few := lineFeeds_le_length (encode text)
  rw [length_encode] at few
  rw [line_advance]
  show 1 + _ ≤ _
  omega

theorem column_le (text : List Char) : (origin.advance text).column ≤ byteLength text + 1 := by
  have few := lastLineLength_le_length (encode text)
  rw [length_encode] at few
  rw [column_advance]
  omega

end Position

open Utf8

-- ── What a place says of its position ──

namespace Finding

variable {q : Placed}

theorem line_of_token {t : Token} (h : ofPlaced? q = some (.token t)) :
    t.line = Word.saturate q.start.line ∧ t.span = q.span := by
  obtain ⟨e, start⟩ := q
  cases e <;> cases h <;> exact ⟨rfl, rfl⟩

/-- A fault is noticed where its character stands, or where its open string ends. -/
theorem cases_of_fault {f : Fault} (h : ofPlaced? q = some (.fault f)) :
    (∃ c, q.element = .stray c ∧ f = q.fault (.unexpectedCharacter c) q.start) ∨
      ∃ body, q.element = .openString body ∧ f = q.fault .unterminatedString q.stop := by
  obtain ⟨e, start⟩ := q
  cases e with
  | stray c =>
      cases h
      exact Or.inl ⟨c, rfl, rfl⟩
  | openString body =>
      cases h
      exact Or.inr ⟨body, rfl, rfl⟩
  | _ => cases h

/-- The span of a finding is that of the element in which it is found. -/
theorem span_of_ofPlaced? {found : Finding} (h : ofPlaced? q = some found) :
    found.span = q.span := by
  cases found with
  | token t => exact (line_of_token h).2
  | fault f =>
      rcases cases_of_fault h with ⟨c, -, rfl⟩ | ⟨body, -, rfl⟩
      · rfl
      · rfl

end Finding

namespace Scan

variable {source : List Char}

theorem line_eof (short : byteLength source < Word.largest) :
    (ofList source).eof.line.toNat = lineAt (encode source) (byteLength source) := by
  have line := Position.line_eq_lineAt source []
  have few := Position.line_le source
  rw [List.append_nil] at line
  rw [← line]
  exact Word.toNat_saturate_of_le (show (Position.origin.advance source).line ≤ _ by omega)

end Scan

namespace Placed

variable {q : Placed} {before after : List Char}

/-- The words for the position at which a place begins are those of its offset. -/
theorem Between.start_exact (h : q.Between before after)
    (short : byteLength (before ++ q.element.text ++ after) < Word.largest) :
    (Word.saturate q.start.line).toNat =
        lineAt (encode (before ++ q.element.text ++ after)) q.span.start.toNat ∧
      (Word.saturate q.start.column).toNat =
        columnAt (encode (before ++ q.element.text ++ after)) q.span.start.toNat := by
  have line := Position.line_eq_lineAt before (q.element.text ++ after)
  have column := Position.column_eq_columnAt before (q.element.text ++ after)
  have fewLines := Position.line_le before
  have fewColumns := Position.column_le before
  rw [byteLength_append, byteLength_append] at short
  have offset : q.span.start.toNat = byteLength before := by
    show (Word.saturate q.start.offset).toNat = _
    rw [h.start_offset]
    exact Word.toNat_saturate_of_le (by omega)
  rw [offset, List.append_assoc, ← line, ← column, h.start]
  exact ⟨Word.toNat_saturate_of_le (by omega), Word.toNat_saturate_of_le (by omega)⟩

/-- The words for the position at which an open string ends are those of the end of the source. -/
theorem Between.stop_exact (h : q.Between before []) {source : List Char}
    (whole : source = before ++ q.element.text) (short : byteLength source < Word.largest) :
    (Word.saturate q.stop.line).toNat = lineAt (encode source) (byteLength source) ∧
      (Word.saturate q.stop.column).toNat = columnAt (encode source) (byteLength source) ∧
      q.span.stop.toNat = byteLength source := by
  have line := Position.line_eq_lineAt source []
  have column := Position.column_eq_columnAt source []
  have fewLines := Position.line_le source
  have fewColumns := Position.column_le source
  have stop : q.stop = Position.origin.advance source := by rw [h.stop, whole]
  rw [List.append_nil] at line column
  rw [← line, ← column, stop]
  refine ⟨Word.toNat_saturate_of_le (by omega), Word.toNat_saturate_of_le (by omega), ?_⟩
  show (Word.saturate q.stop.offset).toNat = _
  rw [stop, Position.offset_origin_advance]
  exact Word.toNat_saturate_of_le (Nat.le_of_lt short)

end Placed

-- ── Every position of a scan ────────

/-- The positions in a scan are those that byte offsets have: a token stands on the line of its
first byte, the end token on that of the last offset, a stray character is reported at the line and
column of its first byte, and an open string at those of the end of the input, up to which its span
goes. -/
structure Scan.Positioned (s : Scan) (bytes : List UInt8) : Prop where
  token : ∀ t ∈ s.tokens, t.line.toNat = lineAt bytes t.span.start.toNat
  last : ∃ t, s.tokens.getLast? = some t ∧ t.kind = .eof ∧
    t.line.toNat = lineAt bytes bytes.length
  diagnostic : ∀ d ∈ s.diagnostics, ∃ span column,
    d.span = some span ∧ d.column = some column ∧
    ((d.code.map Code.text = some "E0002" ∧
        d.line.toNat = lineAt bytes span.start.toNat ∧
        column.toNat = columnAt bytes span.start.toNat) ∨
      (d.code.map Code.text = some "E0001" ∧
        d.line.toNat = lineAt bytes bytes.length ∧
        column.toNat = columnAt bytes bytes.length ∧
        span.stop.toNat = bytes.length))

/-- **Positions.** Every position in a scan is the one that its byte offset has. -/
theorem scan_positions (source : String) (short : source.utf8ByteSize < Word.largest) :
    (Scan.ofString source).Positioned (encode source.toList) := by
  rw [← byteLength_toList] at short
  have finish := Scan.line_eof short
  refine ⟨?_, ⟨_, Scan.getLast?_tokens _, rfl, ?_⟩, ?_⟩
  · intro t ht
    rcases Scan.exists_of_mem_tokens ht with ⟨q, hq, found⟩ | rfl
    · obtain ⟨line, span⟩ := Finding.line_of_token found
      obtain ⟨before, after, whole, between⟩ := Placed.between_of_mem_lay hq
      rw [whole] at short ⊢
      rw [line, span]
      exact (between.start_exact short).1
    · rw [Scan.start_eof short]
      exact finish
  · rw [length_encode]
    exact finish
  · intro d hd
    obtain ⟨q, hq, f, found, rfl⟩ := Scan.exists_of_mem_diagnostics hd
    obtain ⟨before, after, whole, between⟩ := Placed.between_of_mem_lay hq
    rcases Finding.cases_of_fault found with ⟨c, he, rfl⟩ | ⟨body, he, rfl⟩
    · refine ⟨_, _, rfl, rfl, Or.inl ⟨rfl, ?_⟩⟩
      rw [whole] at short ⊢
      exact between.start_exact short
    · -- An open string ends before nothing but the end of the input.
      have last : after = [] := by
        have ends := between.ends
        rw [he] at ends
        exact ends
      subst last
      rw [List.append_nil] at whole
      rw [length_encode]
      exact ⟨_, _, rfl, rfl, Or.inr ⟨rfl, between.stop_exact whole short⟩⟩

/-- Line feeds among blanks, after a comment, in a closed string and in an open one. -/
theorem scan_positions_mixed :
    "a\n// b\n\"c\nd\" é @\n\n \"e\nfg".utf8ByteSize < Word.largest ∧
      (Scan.ofString "a\n// b\n\"c\nd\" é @\n\n \"e\nfg").Positioned
        (encode "a\n// b\n\"c\nd\" é @\n\n \"e\nfg".toList) :=
  ⟨by decide, scan_positions _ (by decide)⟩

end LoxScan
