import LoxScan.Proofs.DumpReading
import LoxScan.Proofs.Lookahead
import Mathlib.Data.List.Forall2

/-!
# Bodies of comments and strings

What is in a comment or a string is not scanned. So one body can be exchanged for another, as long
as that is a body too, and all that becomes of the rest of the text is that what comes after the
body stands elsewhere: as many bytes further on as the new body has more of them, and as many lines
further down as it has more line feeds. Columns change only on the line on which a string ends, for
the lines after that begin after it. A comment ends where its line does, so no column depends on
one.

What comes before the body is not touched. The element before a comment or a string ends where it
does because of the slash or the quote that follows, whatever follows that.

* **`Tiled.exchange`**: an element of a row can be exchanged for one that begins alike.
* **`tokens_around`**, **`diagnostics_around`**: a scan around one element, with what comes after it
  moved on.
* **`displaced_moved`**: what is moved on over the one text and over the other differs by their
  bodies only.
* **`bodies_opaque`**: so no comment and no body of a string has any other effect on a scan.
-/

namespace LoxScan

open Utf8

-- ── Exchanging one element ──────────

namespace Element

/-- In a row, an element can be exchanged for another that begins alike and ends before what
follows. -/
theorem Tiled.exchange {es fs : List Element} {e f : Element} (h : Tiled (es ++ e :: fs))
    (good : f.WellFormed) (ends : f.EndsBefore (fs.flatMap text)) {c : Char} {t u : List Char}
    (first : e.text = c :: t) (alike : f.text = c :: u) (other : c ≠ '.') :
    Tiled (es ++ f :: fs) := by
  induction es with
  | nil =>
      cases h with
      | cons _ _ later => exact Tiled.cons good ends later
  | cons d es ih =>
      cases h with
      | cons goodBefore endsBefore later =>
          refine Tiled.cons goodBefore ?_ (ih later)
          have endsBefore : d.EndsBefore ((es ++ e :: fs).flatMap text) := endsBefore
          show d.EndsBefore ((es ++ f :: fs).flatMap text)
          rw [List.flatMap_append, List.flatMap_cons, first, List.cons_append] at endsBefore
          rw [List.flatMap_append, List.flatMap_cons, alike, List.cons_append]
          exact endsBefore.exchange other _

theorem byteLength_text_comment (body : List Char) :
    byteLength (comment body).text = 2 + byteLength body := by
  show 1 + (1 + byteLength body) = _
  omega

theorem byteLength_text_string (body : List Char) :
    byteLength (string body).text = 2 + byteLength body := by
  show 1 + byteLength (body ++ ['"']) = _
  rw [byteLength_append]
  show 1 + (byteLength body + 1) = _
  omega

/-- An element is found in a text between what comes before it and what comes after it. -/
def FoundBetween (e : Element) (before after : List Char) : Prop :=
  tile (before ++ e.text ++ after) = tile before ++ e :: tile after

variable {e f : Element} {before after : List Char}

theorem FoundBetween.tiled (h : e.FoundBetween before after) :
    Tiled (tile before ++ e :: tile after) := by
  rw [← h]
  exact tiled_tile _

/-- The element is the last one before the rest. -/
theorem FoundBetween.tile_left (h : e.FoundBetween before after) :
    tile (before ++ e.text) = tile before ++ [e] := by
  have tiled := h.tiled
  rw [List.append_cons] at tiled
  have rows := tile_of_tiled tiled.left
  rwa [List.flatMap_append, flatMap_text_tile, List.flatMap_singleton] at rows

theorem FoundBetween.wellFormed (h : e.FoundBetween before after) : e.WellFormed := by
  cases h.tiled.right with
  | cons good _ _ => exact good

theorem FoundBetween.ends (h : e.FoundBetween before after) : e.EndsBefore after := by
  cases h.tiled.right with
  | cons _ ends _ =>
      rw [flatMap_text_tile] at ends
      exact ends

theorem FoundBetween.exchange (h : e.FoundBetween before after) (good : f.WellFormed)
    (ends : f.EndsBefore after) {c : Char} {t u : List Char} (first : e.text = c :: t)
    (alike : f.text = c :: u) (other : c ≠ '.') : f.FoundBetween before after := by
  refine tile_eq_iff.2 ⟨?_, h.tiled.exchange good ?_ first alike other⟩
  · rw [List.flatMap_append, List.flatMap_cons, flatMap_text_tile, flatMap_text_tile,
      List.append_assoc]
  · rw [flatMap_text_tile]
    exact ends

end Element

/-- Every place in a text is between what comes before it and what comes after it. -/
theorem Placed.exists_foundBetween {source : List Char} {q : Placed}
    (h : q ∈ lay .origin (Element.tile source)) :
    ∃ before after, source = before ++ q.element.text ++ after ∧
      q.start = Position.origin.advance before ∧ q.element.FoundBetween before after := by
  obtain ⟨es, fs, rows, start⟩ := exists_of_mem_lay h
  have tiled := Element.tiled_tile source
  have whole := Element.flatMap_text_tile source
  rw [rows] at tiled whole
  have others : Element.Tiled fs := by
    cases tiled.right with
    | cons _ _ later => exact later
  rw [List.flatMap_append, List.flatMap_cons, ← List.append_assoc] at whole
  refine ⟨es.flatMap Element.text, fs.flatMap Element.text, whole.symm, start, ?_⟩
  rw [Element.FoundBetween, whole, rows, Element.tile_of_tiled tiled.left,
    Element.tile_of_tiled others]

-- ── Scans around one element ────────

namespace Scan

/-- What is found in an element that comes after a text. -/
def foundAfter (before : List Char) (e : Element) : List Finding :=
  [⟨e, Position.origin.advance before⟩].filterMap Finding.ofPlaced?

section Around

variable {e : Element} {before after : List Char} (h : e.FoundBetween before after)
include h

/-- **Around an element.** What comes after an element is scanned by itself and moved on. -/
theorem ofList_around :
    ofList (before ++ e.text ++ after) =
      (ofList (before ++ e.text)).followedBy
        ((ofList after).moved (Shift.over (before ++ e.text))) := by
  refine ofList_append ?_
  rw [h, h.tile_left, ← List.append_cons]

/-- What comes before an element is scanned by itself too. -/
theorem findings_concat :
    (ofList (before ++ e.text)).findings =
      (ofList before).findings ++ foundAfter before e := by
  rw [ofList, h.tile_left, Placed.lay_append, List.filterMap_append, Element.flatMap_text_tile]
  rfl

theorem tokens_around :
    (ofList (before ++ e.text ++ after)).tokens =
      (ofList before).tokens.dropLast ++
        (foundAfter before e).filterMap Finding.token? ++
        (ofList after).tokens.map (Token.moved (Shift.over (before ++ e.text))) := by
  rw [ofList_around h, tokens_followedBy, tokens_moved, dropLast_tokens, dropLast_tokens,
    findings_concat h, List.filterMap_append]

theorem diagnostics_around :
    (ofList (before ++ e.text ++ after)).diagnostics =
      (ofList before).diagnostics ++
        ((foundAfter before e).filterMap Finding.fault?).map Fault.toDiagnostic ++
        (ofList after).diagnostics.map (Diagnostic.moved (Shift.over (before ++ e.text))) := by
  rw [ofList_around h, diagnostics_followedBy, diagnostics_moved, diagnostics, faults,
    findings_concat h, List.filterMap_append, List.map_append]
  rfl

end Around

-- ── Where the entries of a scan stand ──

variable {source : List Char}

/-- No token goes over the end of the text. -/
theorem stop_le_of_mem_tokens {t : Token} (h : t ∈ (ofList source).tokens) :
    t.span.stop.toNat ≤ byteLength source := by
  rcases exists_of_mem_tokens h with ⟨q, hq, found⟩ | rfl
  · rw [(Finding.line_of_token found).2]
    exact Nat.le_trans (Word.toNat_saturate_le _) (Placed.stop_offset_le hq)
  · rw [← Position.offset_origin_advance]
    exact Word.toNat_saturate_le _

theorem stop_le_of_mem_diagnostics {g : Diagnostic}
    (h : g ∈ (ofList source).diagnostics) {span : Span}
    (covers : span ∈ g.span) : span.stop.toNat ≤ byteLength source := by
  obtain ⟨q, hq, f, found, rfl⟩ := exists_of_mem_diagnostics h
  obtain rfl := Option.some.inj covers
  have placed : f.span = q.span := Finding.span_of_ofPlaced? found
  rw [placed]
  exact Nat.le_trans (Word.toNat_saturate_le _) (Placed.stop_offset_le hq)

/-- What follows a comment is nothing or a line feed, so nothing is reported on the first line of
it. -/
theorem line_ne_one (ends : Element.Avoids (· ≠ '\n') source) {g : Diagnostic}
    (h : g ∈ (ofList source).diagnostics) : g.line ≠ 1 := by
  obtain ⟨q, hq, f, found, rfl⟩ := exists_of_mem_diagnostics h
  cases source with
  | nil =>
      rw [Element.tile_nil] at hq
      exact nomatch hq
  | cons c rest =>
      obtain rfl : c = '\n' := by simpa using ends c rfl
      rw [Element.tile_newline, Placed.lay_cons] at hq
      rcases List.mem_cons.1 hq with rfl | hq
      · exact nomatch found
      · obtain ⟨before, -, -, start⟩ := Placed.exists_of_mem_lay hq
        have later : 2 ≤ q.start.line := by
          rw [start, Position.line_advance]
          exact Nat.le_add_right ..
        rcases Finding.cases_of_fault found with ⟨c, -, rfl⟩ | ⟨body, -, rfl⟩
        · exact mt Word.saturate_eq_one_iff.1 (by omega)
        · have further : q.start.line ≤ q.stop.line := by
            rw [Placed.stop, Position.line_advance]
            exact Nat.le_add_right ..
          exact mt Word.saturate_eq_one_iff.1 (by omega)

end Scan

-- ── What comes after an exchanged body ──

/-- Two spans of which the second is as many bytes further on as a new body has more than an old
one. -/
structure Span.Displaced (old new : List Char) (s s' : Span) : Prop where
  start : s'.start.toNat + byteLength old = s.start.toNat + byteLength new
  stop : s'.stop.toNat + byteLength old = s.stop.toNat + byteLength new

/-- A token that comes after an exchanged body: it stands as many bytes further on and as many lines
further down as the new body has more of them, and is otherwise the same. -/
structure Token.Displaced (old new : List Char) (t t' : Token) : Prop where
  same : t' = { t with line := t'.line, span := t'.span }
  line : t'.line.toNat + lineFeeds (encode old) = t.line.toNat + lineFeeds (encode new)
  span : t.span.Displaced old new t'.span

/-- A diagnostic that comes after an exchanged body, which ended at one position and now ends at
another. On the line of that position it keeps its distance from it, and on later lines its
column. -/
structure Diagnostic.Displaced (old new : List Char) (p p' : Position)
    (g g' : Diagnostic) : Prop where
  same : g' = { g with line := g'.line, column := g'.column, span := g'.span }
  line : g'.line.toNat + lineFeeds (encode old) = g.line.toNat + lineFeeds (encode new)
  column : Option.Rel
    (fun c c' => if g.line.toNat = p.line then c'.toNat + p.column = c.toNat + p'.column
      else c' = c)
    g.column g'.column
  span : Option.Rel (Span.Displaced old new) g.span g'.span

/-- Two shifts that are as far apart as two bodies. -/
structure Shift.Apart (old new : List Char) (d d' : Shift) : Prop where
  bytes : d'.bytes + byteLength old = d.bytes + byteLength new
  lines : d'.lines + lineFeeds (encode old) = d.lines + lineFeeds (encode new)

theorem Shift.apart_over (opening old new closing : List Char) :
    Apart old new (Shift.over (opening ++ old ++ closing))
      (Shift.over (opening ++ new ++ closing)) := by
  constructor
  · simp only [Shift.over, byteLength_append]
    omega
  · simp only [Shift.over, encode_append, lineFeeds_append]
    omega

/-- On the first line columns are moved. -/
theorem Diagnostic.column_moved_of_first {g : Diagnostic} (h : g.line = 1) (d : Shift) :
    (g.moved d).column = g.column.map fun column => column.plus d.columns := by
  simp only [moved, if_pos h]

/-- Elsewhere a diagnostic is moved by bytes and lines alone. -/
theorem Diagnostic.moved_of_later {g : Diagnostic} (h : g.line ≠ 1) (d : Shift) :
    g.moved d = { g with line := g.line.plus d.lines, span := g.span.map (Span.moved d) } := by
  simp only [moved, if_neg h, Option.map_id']

theorem lineFeeds_encode_of_not_mem {text : List Char} (flat : '\n' ∉ text) :
    lineFeeds (encode text) = 0 :=
  List.count_eq_zero.2 (newline_not_mem_encode flat)

section Moved

variable {old new : List Char} {d d' : Shift} (apart : Shift.Apart old new d d')
include apart

theorem Span.displaced_moved {s : Span}
    (room : s.start.toNat + d.bytes ≤ Word.largest ∧ s.stop.toNat + d.bytes ≤ Word.largest)
    (room' : s.start.toNat + d'.bytes ≤ Word.largest ∧
      s.stop.toNat + d'.bytes ≤ Word.largest) :
    (s.moved d).Displaced old new (s.moved d') := by
  have bytes := apart.bytes
  refine ⟨?_, ?_⟩
  · show (s.start.plus d'.bytes).toNat + _ = (s.start.plus d.bytes).toNat + _
    rw [Word.toNat_plus_of_le room.1, Word.toNat_plus_of_le room'.1]
    omega
  · show (s.stop.plus d'.bytes).toNat + _ = (s.stop.plus d.bytes).toNat + _
    rw [Word.toNat_plus_of_le room.2, Word.toNat_plus_of_le room'.2]
    omega

theorem displaced_line {line : Word} (room : line.toNat + d.lines ≤ Word.largest)
    (room' : line.toNat + d'.lines ≤ Word.largest) :
    (line.plus d'.lines).toNat + lineFeeds (encode old) =
      (line.plus d.lines).toNat + lineFeeds (encode new) := by
  have lines := apart.lines
  rw [Word.toNat_plus_of_le room, Word.toNat_plus_of_le room']
  omega

theorem Token.displaced_moved {t : Token} (room : t.Room d) (room' : t.Room d') :
    (t.moved d).Displaced old new (t.moved d') :=
  ⟨rfl, displaced_line apart room.1 room'.1, Span.displaced_moved apart room.2 room'.2⟩

theorem Diagnostic.displaced_span {g : Diagnostic} (room : g.Room d) (room' : g.Room d') :
    Option.Rel (Span.Displaced old new) (g.moved d).span (g.moved d').span := by
  show Option.Rel _ (g.span.map _) (g.span.map _)
  cases known : g.span with
  | none => exact Option.Rel.none
  | some s =>
      exact Option.Rel.some (Span.displaced_moved apart (room.2.2 s known) (room'.2.2 s known))

theorem Diagnostic.displaced_moved {g : Diagnostic} (room : g.Room d) (room' : g.Room d')
    {p p' : Position}
    (line : p.line = 1 + d.lines) (column : p.column = 1 + d.columns)
    (column' : p'.column = 1 + d'.columns) :
    (g.moved d).Displaced old new p p' (g.moved d') := by
  have first : (g.moved d).line.toNat = p.line ↔ g.line = 1 := by
    show (g.line.plus d.lines).toNat = p.line ↔ g.line = 1
    rw [Word.toNat_plus_of_le room.1, line, ← UInt32.toNat_inj]
    show _ ↔ g.line.toNat = 1
    omega
  refine ⟨rfl, displaced_line apart room.1 room'.1, ?_, displaced_span apart room room'⟩
  by_cases onFirst : g.line = 1
  · rw [column_moved_of_first onFirst, column_moved_of_first onFirst]
    cases known : g.column with
    | none => exact Option.Rel.none
    | some c =>
        refine Option.Rel.some ?_
        rw [if_pos (first.2 onFirst), Word.toNat_plus_of_le (room.2.1 c known),
          Word.toNat_plus_of_le (room'.2.1 c known)]
        omega
  · have kept (d : Shift) : (g.moved d).column = g.column := by rw [moved_of_later onFirst]
    rw [kept, kept]
    cases g.column with
    | none => exact Option.Rel.none
    | some c => exact Option.Rel.some (by rw [if_neg (mt first.1 onFirst)])

end Moved

-- ── Two scans of which one body differs ──

/-- Two rows, of tokens or of diagnostics: the same entries in front, some that are exchanged, and
entries behind these that correspond to each other. In the first row all those in front end before
one offset, and all those behind begin after another. -/
def Exchanged {α : Type} (spans : α → Option Span) (start stop : Nat)
    (corresponds : α → α → Prop) (middle middle' row row' : List α) : Prop :=
  ∃ front behind behind', row = front ++ middle ++ behind ∧
    row' = front ++ middle' ++ behind' ∧
    (∀ x ∈ front, ∀ span ∈ spans x, span.stop.toNat ≤ start) ∧
    (∀ x ∈ behind, ∀ span ∈ spans x, stop ≤ span.start.toNat) ∧
    List.Forall₂ corresponds behind behind'

/-- A scan, and the scan after a comment was exchanged for another: what comes after the comment has
other spans, and nothing else is different. -/
structure Scan.CommentExchanged (before old new : List Char) (s s' : Scan) : Prop where
  tokens : Exchanged (fun t => some t.span)
    (byteLength before) (byteLength before + 2 + byteLength old)
    (fun t t' => t' = { t with span := t'.span } ∧ t.span.Displaced old new t'.span)
    [] [] s.tokens s'.tokens
  diagnostics : Exchanged Diagnostic.span
    (byteLength before) (byteLength before + 2 + byteLength old)
    (fun g g' => g' = { g with span := g'.span } ∧
      Option.Rel (Span.Displaced old new) g.span g'.span)
    [] [] s.diagnostics s'.diagnostics

/-- The position after the closing quote of a string. -/
def Position.afterString (before body : List Char) : Position :=
  origin.advance (before ++ ('"' :: body ++ ['"']))

/-- A scan, and the scan after the body of a string was exchanged for another: the token of the
string has another text, another value and another end, and what comes after it is displaced. -/
structure Scan.BodyExchanged (before old new : List Char) (t : Token) (s s' : Scan) : Prop where
  tokens : Exchanged (fun u => some u.span)
    (byteLength before) (byteLength before + 2 + byteLength old)
    (Token.Displaced old new) [t]
    [{ t with
      lexeme := String.ofList ('"' :: new ++ ['"'])
      literal := some (.string (String.ofList new))
      span := Span.ofRange (byteLength before) (byteLength before + 2 + byteLength new) }]
    s.tokens s'.tokens
  diagnostics : Exchanged Diagnostic.span
    (byteLength before) (byteLength before + 2 + byteLength old)
    (Diagnostic.Displaced old new (.afterString before old) (.afterString before new))
    [] [] s.diagnostics s'.diagnostics

theorem exchanged_of_map {α : Type} {spans : α → Option Span} {start stop : Nat}
    {corresponds : α → α → Prop} {front last : List α} {f g : α → α}
    (inFront : ∀ x ∈ front, ∀ span ∈ spans x, span.stop.toNat ≤ start)
    (behind : ∀ x ∈ last, ∀ span ∈ spans (f x), stop ≤ span.start.toNat)
    (exchanged : ∀ x ∈ last, corresponds (f x) (g x)) (middle middle' : List α) :
    Exchanged spans start stop corresponds middle middle' (front ++ middle ++ last.map f)
      (front ++ middle' ++ last.map g) := by
  refine ⟨front, last.map f, last.map g, rfl, rfl, inFront, ?_, ?_⟩
  · intro y hy
    obtain ⟨x, hx, rfl⟩ := List.mem_map.1 hy
    exact behind x hx
  · rw [List.forall₂_map_left_iff, List.forall₂_map_right_iff, List.forall₂_same]
    exact exchanged

namespace Scan

section Exchange

variable {e f : Element} {before after : List Char} (he : e.FoundBetween before after)
  (hf : f.FoundBetween before after)
    (short : byteLength (before ++ e.text) + byteLength after < Word.largest)
  (short' : byteLength (before ++ f.text) + byteLength after < Word.largest)
include he hf short short'

/-- Of the tokens around an exchanged element those behind it correspond if they do when they are
moved on. -/
theorem tokens_exchanged {corresponds : Token → Token → Prop}
    (exchanged : ∀ t : Token, t.Room (Shift.over (before ++ e.text)) →
      t.Room (Shift.over (before ++ f.text)) →
      corresponds (t.moved (Shift.over (before ++ e.text)))
      (t.moved (Shift.over (before ++ f.text)))) :
    Exchanged (fun t => some t.span) (byteLength before) (byteLength (before ++ e.text)) corresponds
      ((foundAfter before e).filterMap Finding.token?)
      ((foundAfter before f).filterMap Finding.token?)
      (ofList (before ++ e.text ++ after)).tokens (ofList (before ++ f.text ++ after)).tokens := by
  rw [tokens_around he, tokens_around hf]
  refine exchanged_of_map ?_ ?_ ?_ _ _
  · rintro t ht span ⟨rfl⟩
    exact stop_le_of_mem_tokens (List.dropLast_subset _ ht)
  · rintro t ht span ⟨rfl⟩
    show _ ≤ (t.span.start.plus _).toNat
    rw [Word.toNat_plus_of_le (room_tokens short t ht).2.1]
    exact Nat.le_add_left ..
  · intro t ht
    exact exchanged t (room_tokens short t ht) (room_tokens short' t ht)

/-- Diagnostics around an exchanged element in which nothing is reported. -/
theorem diagnostics_exchanged {corresponds : Diagnostic → Diagnostic → Prop}
    (fine : (foundAfter before e).filterMap Finding.fault? = [])
    (fine' : (foundAfter before f).filterMap Finding.fault? = [])
    (exchanged : ∀ g ∈ (ofList after).diagnostics, g.Room (Shift.over (before ++ e.text)) →
      g.Room (Shift.over (before ++ f.text)) →
      corresponds (g.moved (Shift.over (before ++ e.text)))
      (g.moved (Shift.over (before ++ f.text)))) :
    Exchanged Diagnostic.span (byteLength before) (byteLength (before ++ e.text)) corresponds [] []
      (ofList (before ++ e.text ++ after)).diagnostics
        (ofList (before ++ f.text ++ after)).diagnostics := by
  rw [diagnostics_around he, diagnostics_around hf, fine, fine']
  refine exchanged_of_map ?_ ?_ ?_ _ _
  · intro g hg span covers
    exact stop_le_of_mem_diagnostics hg covers
  · intro g hg span covers
    obtain ⟨s, known, rfl⟩ := Option.map_eq_some_iff.1 covers
    show _ ≤ (s.start.plus _).toNat
    rw [Word.toNat_plus_of_le ((room_diagnostics short g hg).2.2 s known).1]
    exact Nat.le_add_left ..
  · intro g hg
    exact exchanged g hg (room_diagnostics short g hg) (room_diagnostics short' g hg)

end Exchange

variable {before old new after : List Char}

/-- **Comments.** Of a comment nothing is seen but where it ends. -/
theorem commentExchanged (h : (Element.comment old).FoundBetween before after) (flat : '\n' ∉ new)
    (short : byteLength (before ++ (Element.comment old).text ++ after) < Word.largest)
    (short' : byteLength (before ++ (Element.comment new).text ++ after) < Word.largest) :
    CommentExchanged before old new (ofList (before ++ (Element.comment old).text ++ after))
      (ofList (before ++ (Element.comment new).text ++ after)) := by
  have h' : (Element.comment new).FoundBetween before after :=
    h.exchange flat h.ends rfl rfl (by decide)
  have apart : Shift.Apart old new (Shift.over (before ++ (Element.comment old).text))
      (Shift.over (before ++ (Element.comment new).text)) := by
    have opened := Shift.apart_over (before ++ ['/', '/']) old new []
    rwa [List.append_nil, List.append_nil, List.append_assoc, List.append_assoc] at opened
  have lines : (Shift.over (before ++ (Element.comment new).text)).lines =
      (Shift.over (before ++ (Element.comment old).text)).lines := by
    have equation := apart.lines
    rwa [lineFeeds_encode_of_not_mem h.wellFormed, lineFeeds_encode_of_not_mem flat] at equation
  have size :
      byteLength (before ++ (Element.comment old).text) =
        byteLength before + 2 + byteLength old := by
    rw [byteLength_append, Element.byteLength_text_comment, Nat.add_assoc]
  rw [byteLength_append] at short short'
  constructor
  · rw [← size]
    refine tokens_exchanged h h' short short' ?_
    intro t room room'
    refine ⟨?_, Span.displaced_moved apart room.2 room'.2⟩
    rw [Token.moved, Token.moved, lines]
  · rw [← size]
    refine diagnostics_exchanged h h' short short' rfl rfl ?_
    intro g hg room room'
    have later := line_ne_one h.ends hg
    refine ⟨?_, Diagnostic.displaced_span apart room room'⟩
    rw [Diagnostic.moved_of_later later, Diagnostic.moved_of_later later, lines]

theorem span_string (before body : List Char) :
    Placed.span ⟨.string body, Position.origin.advance before⟩ =
      Span.ofRange (byteLength before) (byteLength before + 2 + byteLength body) := by
  rw [Placed.span, Placed.stop_offset, Position.offset_origin_advance,
    Element.byteLength_text_string, Nat.add_assoc]

/-- **Strings.** Of the body of a string nothing is seen but by its own token, and its line
feeds. -/
theorem bodyExchanged (h : (Element.string old).FoundBetween before after) (closed : '"' ∉ new)
    (short : byteLength (before ++ (Element.string old).text ++ after) < Word.largest)
    (short' : byteLength (before ++ (Element.string new).text ++ after) < Word.largest) :
    BodyExchanged before old new
      (Placed.token ⟨.string old, Position.origin.advance before⟩ .string
        (some (.string (String.ofList old))))
      (ofList (before ++ (Element.string old).text ++ after))
      (ofList (before ++ (Element.string new).text ++ after)) := by
  have h' : (Element.string new).FoundBetween before after :=
    h.exchange closed trivial rfl rfl (by decide)
  have apart : Shift.Apart old new (Shift.over (before ++ (Element.string old).text))
      (Shift.over (before ++ (Element.string new).text)) := by
    have opened := Shift.apart_over (before ++ ['"']) old new ['"']
    rwa [List.append_assoc, List.append_assoc, List.append_assoc, List.append_assoc] at opened
  have size :
      byteLength (before ++ (Element.string old).text) =
        byteLength before + 2 + byteLength old := by
    rw [byteLength_append, Element.byteLength_text_string, Nat.add_assoc]
  rw [byteLength_append] at short short'
  constructor
  · rw [← size, ← span_string]
    exact tokens_exchanged h h' short short' fun _ => Token.displaced_moved apart
  · rw [← size]
    refine diagnostics_exchanged h h' short short' rfl rfl ?_
    intro g _ room room'
    exact Diagnostic.displaced_moved apart room room' (Position.line_advance ..)
      (Position.column_advance _)
      (Position.column_advance _)

end Scan

/-- The token of a string is found in one. -/
theorem Finding.exists_string_of_token {q : Placed} {t : Token} (h : ofPlaced? q = some (.token t))
    (kind : t.kind = .string) :
    ∃ body, q.element = .string body ∧
      t = q.token .string (some (.string (String.ofList body))) := by
  obtain ⟨e, start⟩ := q
  cases e with
  | string body =>
      cases h
      exact ⟨body, rfl, rfl⟩
  | word letters =>
      cases h
      exact absurd kind (Kind.ofWord_ne_string _)
  | punctuator p =>
      cases h
      exact nomatch kind
  | number whole fraction =>
      cases h
      exact nomatch kind
  | _ => cases h

/-- Every comment in a source can be exchanged for any other. -/
def CommentsOpaque (source : String) : Prop :=
  ∀ q ∈ Placed.lay .origin (Element.tile source.toList), ∀ old, q.element = .comment old →
    ∃ before after, source.toList = before ++ '/' :: '/' :: old ++ after ∧
      q.start.offset = byteLength before ∧
      ∀ new, '\n' ∉ new → byteLength (before ++ '/' :: '/' :: new ++ after) < Word.largest →
        Scan.CommentExchanged before old new (Scan.ofString source)
          (Scan.ofList (before ++ '/' :: '/' :: new ++ after))

/-- The body of every string in a source can be exchanged for any other. -/
def StringsOpaque (source : String) : Prop :=
  ∀ t ∈ (Scan.ofString source).tokens, t.kind = .string →
    ∃ before old after, source.toList = before ++ ('"' :: old ++ ['"']) ++ after ∧
      t.span = Span.ofRange (byteLength before) (byteLength before + 2 + byteLength old) ∧
      ∀ new, '"' ∉ new →
        byteLength (before ++ ('"' :: new ++ ['"']) ++ after) < Word.largest →
        Scan.BodyExchanged before old new t (Scan.ofString source)
          (Scan.ofList (before ++ ('"' :: new ++ ['"']) ++ after))

/-- **Opaque bodies.** Whatever else a comment says, a scan finds the same, and what comes after the
comment stands as many bytes further on as there are more in it. Whatever else a string has in it,
its own token says so, and what comes after it is otherwise only moved: by bytes, by lines if there
are more line feeds in the string, and by columns on the line on which it ends. -/
theorem bodies_opaque (source : String) (short : source.utf8ByteSize < Word.largest) :
    CommentsOpaque source ∧ StringsOpaque source := by
  rw [← byteLength_toList] at short
  constructor
  · rintro q hq old element
    obtain ⟨before, after, whole, start, between⟩ := Placed.exists_foundBetween hq
    rw [element] at whole between
    refine ⟨before, after, whole, ?_, ?_⟩
    · rw [start, Position.offset_origin_advance]
    · intro new flat short'
      rw [whole] at short
      rw [Scan.ofString, whole]
      exact Scan.commentExchanged between flat short short'
  · intro t ht kind
    rcases Scan.exists_of_mem_tokens ht with ⟨q, hq, found⟩ | rfl
    · obtain ⟨before, after, whole, start, between⟩ := Placed.exists_foundBetween hq
      obtain ⟨old, element, rfl⟩ := Finding.exists_string_of_token found kind
      obtain ⟨e, p⟩ := q
      obtain rfl : e = .string old := element
      obtain rfl : p = Position.origin.advance before := start
      refine ⟨before, old, after, whole, Scan.span_string before old, ?_⟩
      intro new closed short'
      rw [whole] at short
      rw [Scan.ofString, whole]
      exact Scan.bodyExchanged between closed short short'
    · exact absurd kind (by decide : Kind.eof ≠ .string)

/-- A comment with a quote in it, and a string over two lines with a fault, a number and a line
after it. -/
theorem bodies_opaque_mixed :
    "x//\"+é\n\"a\nb\"# 1\n@".utf8ByteSize < Word.largest ∧
      (∃ q ∈ Placed.lay .origin (Element.tile "x//\"+é\n\"a\nb\"# 1\n@".toList),
        q.element = .comment ['"', '+', 'é']) ∧
      (∃ t ∈ (Scan.ofString "x//\"+é\n\"a\nb\"# 1\n@").tokens, t.kind = .string) ∧
      CommentsOpaque "x//\"+é\n\"a\nb\"# 1\n@" ∧ StringsOpaque "x//\"+é\n\"a\nb\"# 1\n@" := by
  have tile : Element.tile "x//\"+é\n\"a\nb\"# 1\n@".toList =
      [.word ['x'], .comment ['"', '+', 'é'], .blank '\n', .string ['a', '\n', 'b'],
        .stray '#', .blank ' ',
        .number ['1'] [], .blank '\n', .stray '@'] := by
    refine Element.tile_eq_cons rfl (Element.tile_eq_cons rfl (Element.tile_eq_cons rfl ?_))
    refine Element.tile_eq_cons rfl (Element.tile_eq_cons rfl (Element.tile_eq_cons rfl ?_))
    exact Element.tile_eq_cons rfl (Element.tile_eq_cons rfl
      (Element.tile_eq_cons rfl Element.tile_nil))
  have commented : ∃ q ∈ Placed.lay .origin (Element.tile "x//\"+é\n\"a\nb\"# 1\n@".toList),
      q.element = .comment ['"', '+', 'é'] := by
    rw [tile]
    exact ⟨_, List.mem_cons_of_mem _ List.mem_cons_self, rfl⟩
  have quoted : ∃ t ∈ (Scan.ofString "x//\"+é\n\"a\nb\"# 1\n@").tokens, t.kind = .string := by
    rw [Scan.ofString, Scan.tokens, Scan.ofList, tile]
    exact ⟨_, List.mem_cons_of_mem _ List.mem_cons_self, rfl⟩
  exact ⟨by decide, commented, quoted, bodies_opaque _ (by decide)⟩

end LoxScan
