import LoxScan.Proofs.Grammar
import LoxScan.Proofs.Positions
import LoxScan.Text.Cursor
import Mathlib.Data.List.Chain

/-!
# Scanning a text in parts

Where one element ends and the next begins, a text can be cut, and its parts scanned on their own.
What is found in the second part then has to be moved on by the first: bytes and lines always,
columns only on the line that the cut goes through (`Shift`, `Scan.moved`). No more than that is
carried from one part to the next, and nothing that is seen beyond a cut changes an element that
ends before it.

A cut at a line feed is the common case. It can only go through a string, and then the first part
has an open string of its own. So a script without strings across line ends may be scanned line by
line.

* **`uncut_iff`**: no element stands across a cut exactly if the elements of the whole are those of
  the first part and then those of the second.
* **`ofList_append`**: the scan of the whole is then that of the first part followed by that of the
  second, moved on.
* **`uncut_of_closed`**: no element stands across a line feed unless the first part has an open
  string.
* **`scan_compositional`**: all of this for source texts, cut once or at any number of line feeds.
-/

namespace LoxScan

open Utf8

-- ── Moving on ───────────────────────

/-- What a text does to the positions after it: the bytes and the line feeds in it, and the bytes
after the last of those. -/
structure Shift where
  bytes : Nat
  lines : Nat
  columns : Nat

/-- The shift over a text. -/
def Shift.over (text : List Char) : Shift :=
  ⟨byteLength text, lineFeeds (encode text), lastLineLength (encode text)⟩

def Span.moved (d : Shift) (s : Span) : Span :=
  ⟨s.start.plus d.bytes, s.stop.plus d.bytes⟩

def Token.moved (d : Shift) (t : Token) : Token :=
  { t with line := t.line.plus d.lines, span := t.span.moved d }

/-- Only columns on the first line are moved. -/
def Diagnostic.moved (d : Shift) (g : Diagnostic) : Diagnostic :=
  { g with
    line := g.line.plus d.lines
    column := g.column.map fun column => if g.line = 1 then column.plus d.columns else column
    span := g.span.map (Span.moved d) }

def Fault.moved (d : Shift) (f : Fault) : Fault :=
  { f with
    line := f.line.plus d.lines
    column := if f.line = 1 then f.column.plus d.columns else f.column
    span := f.span.moved d }

def Finding.moved (d : Shift) : Finding → Finding
  | token t => token (t.moved d)
  | fault f => fault (f.moved d)

/-- Only the first line is moved by columns. The others begin within the text that is moved. -/
def Position.moved (d : Shift) (p : Position) : Position :=
  ⟨d.bytes + p.offset, d.lines + p.line,
    if p.line = 1 then d.bytes - d.columns + p.lineStart else d.bytes + p.lineStart⟩

def Placed.moved (d : Shift) (q : Placed) : Placed :=
  ⟨q.element, q.start.moved d⟩

namespace Scan

def moved (d : Shift) (s : Scan) : Scan :=
  ⟨s.findings.map (Finding.moved d), s.finish.moved d⟩

/-- One scan and then another: the end of the first is forgotten. -/
def followedBy (s t : Scan) : Scan :=
  ⟨s.findings ++ t.findings, t.finish⟩

/-- The scans of the parts of a text, one after another, each moved on by the parts before it. -/
def inParts : List (List Char) → Scan
  | [] => ofList []
  | part :: parts => (ofList part).followedBy ((inParts parts).moved (Shift.over part))

end Scan

/-- The words of a token leave room for a shift. -/
def Token.Room (d : Shift) (t : Token) : Prop :=
  t.line.toNat + d.lines ≤ Word.largest ∧
    t.span.start.toNat + d.bytes ≤ Word.largest ∧ t.span.stop.toNat + d.bytes ≤ Word.largest

/-- The words of a diagnostic leave room for a shift. -/
def Diagnostic.Room (d : Shift) (g : Diagnostic) : Prop :=
  g.line.toNat + d.lines ≤ Word.largest ∧
    (∀ column ∈ g.column, column.toNat + d.columns ≤ Word.largest) ∧
    ∀ span ∈ g.span,
      span.start.toNat + d.bytes ≤ Word.largest ∧ span.stop.toNat + d.bytes ≤ Word.largest

-- ── Words and positions move alike ──

namespace Word

theorem saturate_eq_one_iff {n : Nat} : saturate n = 1 ↔ n = 1 := by
  rw [← UInt32.toNat_inj, toNat_saturate]
  show min n largest = 1 ↔ n = 1
  have large : 1 < largest := by decide
  omega

end Word

namespace Position

variable {d : Shift} {p : Position}

theorem one_le_line_advance (h : 1 ≤ p.line) (text : List Char) :
    1 ≤ (p.advance text).line := by
  rw [line_advance]
  exact Nat.le_trans h (Nat.le_add_right ..)

theorem next_moved (h : 1 ≤ p.line) (c : Char) : (p.moved d).next c = (p.next c).moved d := by
  by_cases newline : c = '\n'
  · subst newline
    show (⟨d.bytes + p.offset + 1, d.lines + p.line + 1, d.bytes + p.offset + 1⟩ : Position)
      = moved d ⟨p.offset + 1, p.line + 1, p.offset + 1⟩
    -- The new line begins within the text that is moved, and is not the first one any more.
    have below : p.line + 1 ≠ 1 := by omega
    rw [moved, if_neg below]
    rfl
  · rw [next, next, if_neg newline, if_neg newline]
    show (⟨d.bytes + p.offset + c.utf8Size, _, _⟩ : Position)
      = ⟨d.bytes + (p.offset + c.utf8Size), _, _⟩
    rw [Nat.add_assoc]
    rfl

/-- Moved on or not, a position passes over a text in the same way. -/
theorem advance_moved (h : 1 ≤ p.line) (text : List Char) :
    (p.moved d).advance text = (p.advance text).moved d := by
  induction text generalizing p with
  | nil => rfl
  | cons c text ih =>
      rw [advance_cons, advance_cons, next_moved h]
      exact ih (one_le_line_advance h [c])

theorem moved_origin (text : List Char) : origin.moved (Shift.over text) = origin.advance text := by
  have offset := offset_origin_advance text
  have line : (origin.advance text).line = 1 + lineFeeds (encode text) := line_advance origin text
  have column := column_advance text
  have within : (origin.advance text).lineStart ≤ (origin.advance text).offset :=
    lineStart_le_offset (Nat.le_refl 0) text
  rw [Position.column] at column
  have start :
      byteLength text - lastLineLength (encode text) = (origin.advance text).lineStart := by
    omega
  show (⟨byteLength text, lineFeeds (encode text) + 1,
    byteLength text - lastLineLength (encode text)⟩ : Position) = origin.advance text
  rw [start, ← offset, Nat.add_comm, ← line]

theorem saturate_line_moved (p : Position) :
    Word.saturate (p.moved d).line = (Word.saturate p.line).plus d.lines :=
  (Word.plus_saturate ..).symm

theorem saturate_column_moved (within : p.lineStart ≤ p.offset) (less : d.columns ≤ d.bytes) :
    Word.saturate (p.moved d).column =
      if Word.saturate p.line = 1 then (Word.saturate p.column).plus d.columns
      else Word.saturate p.column := by
  by_cases first : p.line = 1
  · have joined : (p.moved d).column = d.columns + p.column := by
      show d.bytes + p.offset - (if p.line = 1 then _ else _) + 1 = d.columns + (_ - _ + 1)
      rw [if_pos first]
      omega
    rw [if_pos (Word.saturate_eq_one_iff.2 first), Word.plus_saturate, joined]
  · have kept : (p.moved d).column = p.column := by
      show d.bytes + p.offset - (if p.line = 1 then _ else _) + 1 = _ - _ + 1
      rw [if_neg first, Nat.add_sub_add_left]
    rw [if_neg (mt Word.saturate_eq_one_iff.1 first), kept]

end Position

-- ── Scans move as a whole ───────────

namespace Placed

variable {d : Shift} {q : Placed}

/-- Elements that are laid from a later point are moved on, and otherwise the same. -/
theorem lay_moved {p : Position} (h : 1 ≤ p.line) (es : List Element) :
    lay (p.moved d) es = (lay p es).map (Placed.moved d) := by
  induction es generalizing p with
  | nil => rfl
  | cons e es ih =>
      rw [lay_cons, lay_cons, List.map_cons, Position.advance_moved h,
        ih (Position.one_le_line_advance h e.text)]
      rfl

theorem stop_moved (h : 1 ≤ q.start.line) : (q.moved d).stop = q.stop.moved d :=
  Position.advance_moved h _

theorem span_moved (h : 1 ≤ q.start.line) : (q.moved d).span = q.span.moved d := by
  show Span.mk (Word.saturate _) (Word.saturate (q.moved d).stop.offset) = Span.mk _ _
  rw [stop_moved h]
  exact congrArg₂ Span.mk (Word.plus_saturate ..).symm (Word.plus_saturate ..).symm

theorem token_moved (h : 1 ≤ q.start.line) (kind : Kind) (literal : Option Literal) :
    (q.moved d).token kind literal = (q.token kind literal).moved d := by
  rw [token, span_moved h]
  show Token.mk _ _ _ (Word.saturate (q.start.moved d).line) _ = _
  rw [Position.saturate_line_moved]
  rfl

theorem fault_moved (h : 1 ≤ q.start.line) (cause : Fault.Cause) {p : Position}
    (within : p.lineStart ≤ p.offset) (less : d.columns ≤ d.bytes) :
    (q.moved d).fault cause (p.moved d) = (q.fault cause p).moved d := by
  rw [fault, span_moved h, Position.saturate_line_moved, Position.saturate_column_moved within less]
  rfl

theorem ofPlaced?_moved (h : 1 ≤ q.start.line) (within : q.start.lineStart ≤ q.start.offset)
    (less : d.columns ≤ d.bytes) :
    Finding.ofPlaced? (q.moved d) = (Finding.ofPlaced? q).map (Finding.moved d) := by
  obtain ⟨e, start⟩ := q
  cases e with
  | comment body => rfl
  | blank c => rfl
  | stray c => exact congrArg (some ∘ Finding.fault) (fault_moved h _ within less)
  | openString body =>
      refine congrArg (some ∘ Finding.fault) ?_
      rw [stop_moved h]
      exact fault_moved h _ (Position.lineStart_le_offset within _) less
  | _ => exact congrArg (some ∘ Finding.token) (token_moved h _ _)

end Placed

namespace Scan

variable (d : Shift) (s t : Scan)

theorem tokens_moved : (s.moved d).tokens = s.tokens.map (Token.moved d) := by
  have found : ∀ f : Finding, (f.moved d).token? = f.token?.map (Token.moved d) := by
    intro f
    cases f <;> rfl
  have last : (s.moved d).eof = s.eof.moved d := by
    have line : Word.saturate (s.moved d).finish.line = s.eof.line.plus d.lines :=
      (Word.plus_saturate ..).symm
    have offset : Word.saturate (s.moved d).finish.offset = s.eof.span.start.plus d.bytes :=
      (Word.plus_saturate ..).symm
    rw [eof, line, offset]
    rfl
  rw [tokens, tokens, List.map_append, last, List.map_filterMap]
  show (s.findings.map (Finding.moved d)).filterMap _ ++ _ = _
  rw [List.filterMap_map]
  exact congrArg (· ++ _) (List.filterMap_congr fun f _ => found f)

theorem diagnostics_moved : (s.moved d).diagnostics = s.diagnostics.map (Diagnostic.moved d) := by
  have found : ∀ f : Finding, (f.moved d).fault? = f.fault?.map (Fault.moved d) := by
    intro f
    cases f <;> rfl
  rw [diagnostics, diagnostics, faults, faults, List.map_map, List.map_filterMap,
    List.map_filterMap]
  show (s.findings.map (Finding.moved d)).filterMap _ = _
  rw [List.filterMap_map]
  refine List.filterMap_congr ?_
  intro f _
  show (f.moved d).fault?.map _ = _
  rw [found, Option.map_map]
  rfl

theorem dropLast_tokens : s.tokens.dropLast = s.findings.filterMap Finding.token? :=
  List.dropLast_concat

theorem tokens_followedBy : (s.followedBy t).tokens = s.tokens.dropLast ++ t.tokens := by
  rw [dropLast_tokens, tokens, tokens, ← List.append_assoc]
  exact congrArg (· ++ [t.eof]) List.filterMap_append

theorem diagnostics_followedBy :
    (s.followedBy t).diagnostics = s.diagnostics ++ t.diagnostics := by
  rw [diagnostics, diagnostics, diagnostics, ← List.map_append]
  exact congrArg (List.map Fault.toDiagnostic) List.filterMap_append

end Scan

theorem filterMap_lay_moved (d : Shift) (less : d.columns ≤ d.bytes) (source : List Char) :
    (Placed.lay (Position.origin.moved d) (Element.tile source)).filterMap Finding.ofPlaced? =
      (Scan.ofList source).findings.map (Finding.moved d) := by
  rw [Placed.lay_moved (Nat.le_refl 1), List.filterMap_map]
  show _ = ((Placed.lay .origin (Element.tile source)).filterMap Finding.ofPlaced?).map _
  rw [List.map_filterMap]
  refine List.filterMap_congr ?_
  intro q hq
  obtain ⟨before, after, -, between⟩ := Placed.between_of_mem_lay hq
  have line : 1 ≤ q.start.line := by
    rw [between.start]
    exact Position.one_le_line_advance (Nat.le_refl 1) before
  have within : q.start.lineStart ≤ q.start.offset := by
    rw [between.start]
    exact Position.lineStart_le_offset (Nat.le_refl 0) before
  exact Placed.ofPlaced?_moved line within less

/-- **Two parts.** Where the elements of a text are those of two parts of it, its scan is the scan
of the first followed by that of the second, moved on. -/
theorem ofList_append {a b : List Char}
    (h : Element.tile (a ++ b) = Element.tile a ++ Element.tile b) :
    Scan.ofList (a ++ b) = (Scan.ofList a).followedBy ((Scan.ofList b).moved (Shift.over a)) := by
  have less : (Shift.over a).columns ≤ (Shift.over a).bytes := by
    show lastLineLength (encode a) ≤ byteLength a
    rw [← length_encode]
    exact lastLineLength_le_length _
  rw [Scan.ofList, h, Placed.lay_append, List.filterMap_append, Element.flatMap_text_tile,
    ← Position.moved_origin a, filterMap_lay_moved _ less, Position.advance_append,
    ← Position.moved_origin a, Position.advance_moved (Nat.le_refl 1)]
  rfl

-- ── Where a text can be cut ─────────

/-- No element of a text in two parts begins in the first and ends in the second. -/
def Uncut (a b : List Char) : Prop :=
  ∀ q ∈ Placed.lay .origin (Element.tile (a ++ b)),
    ¬ (q.start.offset < byteLength a ∧ byteLength a < q.stop.offset)

namespace Element

theorem Avoids.left {p : Char → Bool} {x y : List Char} (h : Avoids p (x ++ y)) : Avoids p x := by
  intro c hc
  obtain ⟨rest, rfl⟩ := List.head?_eq_some_iff.1 hc
  exact h c rfl

theorem Avoids.concat {p : Char → Bool} {x : List Char} (h : Avoids p x) {c : Char}
    (hc : p c = false) (y : List Char) : Avoids p (x ++ c :: y) := by
  cases x with
  | nil => exact avoids_cons hc
  | cons d x => exact avoids_cons (h d rfl)

/-- To end before a text is to end before any first part of it, so what lies beyond a cut is of no
account. -/
theorem EndsBefore.left {e : Element} {x y : List Char} (h : e.EndsBefore (x ++ y)) :
    e.EndsBefore x := by
  cases e with
  | punctuator p => exact ⟨fun longer => (h.1 longer).left, fun slash => (h.2 slash).left⟩
  | number whole fraction =>
      cases fraction with
      | nil =>
          refine ⟨h.1.left, ?_⟩
          rintro d more rfl
          exact h.2 d (more ++ y) rfl
      | cons d fraction => exact Avoids.left h
  | word letters => exact Avoids.left h
  | comment body => exact Avoids.left h
  | openString body => exact (List.append_eq_nil_iff.1 h).1
  | string body => trivial
  | blank c => trivial
  | stray c => trivial

/-- Only an open string goes on over a line feed. -/
theorem EndsBefore.concat_newline {e : Element} {x : List Char} (h : e.EndsBefore x)
    (closed : e.rule ≠ .openString) (y : List Char) : e.EndsBefore (x ++ '\n' :: y) := by
  cases e with
  | punctuator p =>
      exact ⟨fun longer => (h.1 longer).concat (by decide) y,
        fun slash => (h.2 slash).concat (by decide) y⟩
  | number whole fraction =>
      cases fraction with
      | nil =>
          refine ⟨h.1.concat (by decide) y, ?_⟩
          intro d more begins
          rcases List.append_eq_cons_iff.1 begins with ⟨rfl, feed⟩ | ⟨tail, rfl, rest⟩
          · exact absurd (List.cons.inj feed).1 (by decide)
          · rcases List.append_eq_cons_iff.1 rest.symm with ⟨rfl, feed⟩ | ⟨tail, rfl, -⟩
            · obtain rfl := (List.cons.inj feed).1
              decide
            · exact h.2 d tail rfl
      | cons d fraction => exact Avoids.concat h (by decide) y
  | word letters => exact Avoids.concat h (by decide) y
  | comment body => exact Avoids.concat h (by decide) y
  | openString body => exact absurd rfl closed
  | string body => trivial
  | blank c => trivial
  | stray c => trivial

theorem Tiled.left {es fs : List Element} (h : Tiled (es ++ fs)) : Tiled es := by
  induction es with
  | nil => exact Tiled.nil
  | cons e es ih =>
      cases h with
      | cons good ends later =>
          have ends : e.EndsBefore ((es ++ fs).flatMap text) := ends
          rw [List.flatMap_append] at ends
          exact Tiled.cons good ends.left (ih later)

/-- Rows without an open string can be followed by any row that begins with a line feed. -/
theorem Tiled.append_newline {es fs : List Element} (h : Tiled es)
    (closed : ∀ e ∈ es, e.rule ≠ .openString) (later : Tiled fs) {rest : List Char}
    (feed : fs.flatMap text = '\n' :: rest) : Tiled (es ++ fs) := by
  induction h with
  | nil => exact later
  | @cons e es good ends _ ih =>
      refine Tiled.cons good ?_ (ih fun f hf => closed f (List.mem_cons_of_mem e hf))
      show e.EndsBefore ((es ++ fs).flatMap text)
      rw [List.flatMap_append, feed]
      exact ends.concat_newline (closed e List.mem_cons_self) rest

/-- A row of elements of which none stands across a cut falls into a row before it and one after
it. -/
theorem exists_rows {p : Position} {es : List Element} {a b : List Char}
    (whole : es.flatMap text = a ++ b)
    (uncut : ∀ q ∈ Placed.lay p es,
      ¬ (q.start.offset < p.offset + byteLength a ∧ p.offset + byteLength a < q.stop.offset)) :
    ∃ fs gs, es = fs ++ gs ∧ fs.flatMap text = a ∧ gs.flatMap text = b := by
  induction es generalizing p a with
  | nil =>
      obtain ⟨rfl, rfl⟩ := List.append_eq_nil_iff.1 whole.symm
      exact ⟨[], [], rfl, rfl, rfl⟩
  | cons e es ih =>
      cases a with
      | nil => exact ⟨[], e :: es, rfl, rfl, whole⟩
      | cons c a =>
          -- Something is left of the first part, so the first element begins in it, and must end in
          -- it.
          have positive := Char.utf8Size_pos c
          have apart := uncut ⟨e, p⟩ List.mem_cons_self
          rw [Placed.stop_offset, byteLength_cons] at apart
          have fits : byteLength e.text ≤ c.utf8Size + byteLength a := by
            by_contra long
            exact apart ⟨by show p.offset < _; omega, by
              show _ < p.offset + byteLength e.text; omega⟩
          rw [List.flatMap_cons] at whole
          obtain ⟨left, cut, rest⟩ := exists_append_of_byteLength_le whole.symm fits
          have offset : (p.advance e.text).offset + byteLength left =
              p.offset + byteLength (c :: a) := by
            rw [Position.offset_advance, cut, byteLength_append, Nat.add_assoc]
          obtain ⟨fs, gs, rfl, before, after⟩ := ih rest (p := p.advance e.text) (by
            rw [offset]
            exact fun q hq => uncut q (List.mem_cons_of_mem _ hq))
          exact ⟨e :: fs, gs, rfl, by rw [List.flatMap_cons, before, cut], after⟩

end Element

/-- **Cuts.** No element stands across a cut exactly if the elements of the whole text are those of
the first part and then those of the second. -/
theorem uncut_iff {a b : List Char} :
    Uncut a b ↔ Element.tile (a ++ b) = Element.tile a ++ Element.tile b := by
  constructor
  · intro uncut
    have whole := Element.flatMap_text_tile (a ++ b)
    have tiled := Element.tiled_tile (a ++ b)
    obtain ⟨fs, gs, rows, rfl, rfl⟩ := Element.exists_rows whole (p := .origin) (by
      show ∀ q ∈ _, ¬ (_ < 0 + _ ∧ 0 + _ < _)
      rw [Nat.zero_add]
      exact uncut)
    rw [rows] at tiled ⊢
    rw [Element.tile_of_tiled tiled.left, Element.tile_of_tiled tiled.right]
  · -- Each place is one of the first row, which ends with `a`, or of the second, which begins
    -- there.
    intro rows q hq
    rw [rows, Placed.lay_append, Element.flatMap_text_tile] at hq
    rcases List.mem_append.1 hq with hq | hq
    · have before := Placed.stop_offset_le hq
      omega
    · obtain ⟨before, -, -, start⟩ := Placed.exists_of_mem_lay hq
      have after : byteLength a ≤ q.start.offset := by
        rw [start, Position.offset_advance, Position.offset_origin_advance]
        exact Nat.le_add_right ..
      omega

namespace Scan

/-- No string was left open. -/
def Closed (s : Scan) : Prop :=
  ∀ d ∈ s.diagnostics, d.code.map Code.text ≠ some "E0001"

/-- Exactly the elements of an open string are reported as such. -/
theorem closed_iff {source : List Char} :
    (ofList source).Closed ↔ ∀ e ∈ Element.tile source, e.rule ≠ .openString := by
  constructor
  · intro closed e he open_
    rw [← Placed.map_element_lay .origin (Element.tile source)] at he
    obtain ⟨q, hq, rfl⟩ := List.mem_map.1 he
    obtain ⟨f, found, code⟩ : ∃ f, Finding.ofPlaced? q = some (.fault f) ∧
        f.toDiagnostic.code.map Code.text = some "E0001" := by
      obtain ⟨e, start⟩ := q
      cases e with
      | openString body => exact ⟨_, rfl, rfl⟩
      | _ => exact nomatch open_
    have noticed : f ∈ (ofList source).faults :=
      List.mem_filterMap.2 ⟨.fault f, List.mem_filterMap.2 ⟨q, hq, found⟩, rfl⟩
    exact closed _ (List.mem_map_of_mem noticed) code
  · intro others d hd code
    obtain ⟨q, hq, f, found, rfl⟩ := exists_of_mem_diagnostics hd
    rcases Finding.cases_of_fault found with ⟨c, -, rfl⟩ | ⟨body, element, rfl⟩
    · have other : "E0002" = "E0001" := Option.some.inj code
      exact absurd other (by decide)
    · have he : q.element ∈ Element.tile source := by
        rw [← Placed.map_element_lay .origin (Element.tile source)]
        exact List.mem_map_of_mem hq
      refine others _ he ?_
      rw [element]
      rfl

end Scan

/-- **Line feeds.** A text without an open string can be cut off before a line feed. -/
theorem uncut_of_closed {a : List Char} (h : (Scan.ofList a).Closed) (rest : List Char) :
    Uncut a ('\n' :: rest) := by
  have whole := Element.flatMap_text_tile ('\n' :: rest)
  refine uncut_iff.2 (Element.tile_eq_iff.2 ⟨?_, ?_⟩)
  · rw [List.flatMap_append, Element.flatMap_text_tile, whole]
  · exact (Element.tiled_tile a).append_newline (Scan.closed_iff.1 h) (Element.tiled_tile _) whole

-- ── Room for a shift ────────────────

/-- The words for a position leave room for a shift. -/
def Position.Room (d : Shift) (p : Position) : Prop :=
  (Word.saturate p.offset).toNat + d.bytes ≤ Word.largest ∧
    (Word.saturate p.line).toNat + d.lines ≤ Word.largest ∧
    (Word.saturate p.column).toNat + d.columns ≤ Word.largest

/-- Positions in the second of two texts that are short enough together can be moved on by the
first. -/
theorem Position.room_advance {a text : List Char}
    (short : byteLength a + byteLength text < Word.largest) :
    (origin.advance text).Room (Shift.over a) := by
  have offset := offset_origin_advance text
  have line := line_le text
  have column := column_le text
  have lines := lineFeeds_le_length (encode a)
  have columns := lastLineLength_le_length (encode a)
  rw [length_encode] at lines columns
  refine ⟨?_, ?_, ?_⟩
  · show _ + byteLength a ≤ _
    rw [Word.toNat_saturate]
    omega
  · show _ + lineFeeds (encode a) ≤ _
    rw [Word.toNat_saturate]
    omega
  · show _ + lastLineLength (encode a) ≤ _
    rw [Word.toNat_saturate]
    omega

theorem Placed.room {a b : List Char} (short : byteLength a + byteLength b < Word.largest)
    {q : Placed} (h : q ∈ lay .origin (Element.tile b)) :
    q.start.Room (Shift.over a) ∧ q.stop.Room (Shift.over a) := by
  obtain ⟨before, after, rfl, between⟩ := between_of_mem_lay h
  rw [byteLength_append, byteLength_append] at short
  constructor
  · rw [between.start]
    exact Position.room_advance (by omega)
  · rw [between.stop]
    refine Position.room_advance ?_
    rw [byteLength_append]
    omega

namespace Scan

variable {a b : List Char}

theorem room_tokens (short : byteLength a + byteLength b < Word.largest) :
    ∀ t ∈ (ofList b).tokens, t.Room (Shift.over a) := by
  intro t ht
  rcases exists_of_mem_tokens ht with ⟨q, hq, found⟩ | rfl
  · obtain ⟨line, span⟩ := Finding.line_of_token found
    obtain ⟨start, stop⟩ := Placed.room short hq
    rw [Token.Room, line, span]
    exact ⟨start.2.1, start.1, stop.1⟩
  · obtain ⟨offset, line, -⟩ := Position.room_advance short
    exact ⟨line, offset, offset⟩

theorem room_diagnostics (short : byteLength a + byteLength b < Word.largest) :
    ∀ g ∈ (ofList b).diagnostics, g.Room (Shift.over a) := by
  intro g hg
  obtain ⟨q, hq, f, found, rfl⟩ := exists_of_mem_diagnostics hg
  obtain ⟨start, stop⟩ := Placed.room short hq
  have span : ∀ span ∈ some q.span, span.start.toNat + (Shift.over a).bytes ≤ Word.largest ∧
      span.stop.toNat + (Shift.over a).bytes ≤ Word.largest := by
    rintro span ⟨rfl⟩
    exact ⟨start.1, stop.1⟩
  rcases Finding.cases_of_fault found with ⟨c, -, rfl⟩ | ⟨body, -, rfl⟩
  · refine ⟨start.2.1, ?_, span⟩
    rintro column ⟨rfl⟩
    exact start.2.2
  · refine ⟨stop.2.1, ?_, span⟩
    rintro column ⟨rfl⟩
    exact stop.2.2

end Scan

-- ── Source texts in parts ───────────

/-- A scan is one scan without its end token and then another, moved on without being cut off. -/
structure Scan.Joins (whole s t : Scan) (d : Shift) : Prop where
  tokens : whole.tokens = s.tokens.dropLast ++ t.tokens.map (Token.moved d)
  diagnostics : whole.diagnostics = s.diagnostics ++ t.diagnostics.map (Diagnostic.moved d)
  tokenRoom : ∀ g ∈ t.tokens, g.Room d
  diagnosticRoom : ∀ g ∈ t.diagnostics, g.Room d

/-- Two parts may be parted: the first leaves no string open, and the second begins with a line
feed. -/
def Scan.LineBreak (a b : List Char) : Prop :=
  (ofList a).Closed ∧ b.head? = some '\n'

theorem Scan.LineBreak.uncut {a b : List Char} (h : LineBreak a b) : Uncut a b := by
  obtain ⟨closed, feed⟩ := h
  obtain ⟨rest, rfl⟩ := List.head?_eq_some_iff.1 feed
  exact uncut_of_closed closed rest

/-- **Any number of parts.** A text that is parted at line feeds is scanned as its parts are. -/
theorem ofList_flatten {parts : List (List Char)} (h : parts.IsChain Scan.LineBreak) :
    Scan.ofList parts.flatten = Scan.inParts parts := by
  induction parts with
  | nil => rfl
  | cons part parts ih =>
      have rows : Element.tile (part ++ parts.flatten) =
          Element.tile part ++ Element.tile parts.flatten := by
        cases parts with
        | nil => simp
        | cons next parts =>
            obtain ⟨closed, feed⟩ := (List.isChain_cons_cons.1 h).1
            have whole : Scan.LineBreak part (next :: parts).flatten := by
              obtain ⟨rest, rfl⟩ := List.head?_eq_some_iff.1 feed
              exact ⟨closed, rfl⟩
            exact uncut_iff.1 whole.uncut
      rw [List.flatten_cons, ofList_append rows, ih h.tail]
      rfl

/-- **Scanning is compositional.** Where no element stands across a cut, the scan of the whole is
that of the first part and then that of the second, moved on. No element stands across a line feed
unless the first part leaves a string open. So a text without strings across line ends scans the
same line by line as whole. -/
theorem scan_compositional :
    (∀ a b : String, a.utf8ByteSize + b.utf8ByteSize < Word.largest →
      Uncut a.toList b.toList →
      (Scan.ofString (a ++ b)).Joins (Scan.ofString a) (Scan.ofString b) (Shift.over a.toList)) ∧
    (∀ a b : String, Scan.LineBreak a.toList b.toList → Uncut a.toList b.toList) ∧
    ∀ parts : List String, (parts.map String.toList).IsChain Scan.LineBreak →
      Scan.ofString (String.join parts) = Scan.inParts (parts.map String.toList) := by
  refine ⟨?_, ?_, ?_⟩
  · intro a b short uncut
    rw [← byteLength_toList, ← byteLength_toList] at short
    have whole : Scan.ofString (a ++ b) =
        (Scan.ofString a).followedBy ((Scan.ofString b).moved (Shift.over a.toList)) := by
      rw [Scan.ofString, String.toList_append]
      exact ofList_append (uncut_iff.1 uncut)
    refine ⟨?_, ?_, Scan.room_tokens short, Scan.room_diagnostics short⟩
    · rw [whole, Scan.tokens_followedBy, Scan.tokens_moved]
    · rw [whole, Scan.diagnostics_followedBy, Scan.diagnostics_moved]
  · intro a b parted
    exact parted.uncut
  · intro parts chain
    have whole : (String.join parts).toList = (parts.map String.toList).flatten := by
      rw [String.toList_join, List.flatMap_def]
    rw [Scan.ofString, whole]
    exact ofList_flatten chain

theorem Element.tile_eq_cons {c : Char} {rest after : List Char} {e : Element} {es : List Element}
    (step : next c rest = (e, after)) (later : tile after = es) : tile (c :: rest) = e :: es := by
  rw [tile_cons, step, later]

/-- A closed string over two lines and a comment before a line feed, points and faults after it. -/
theorem scan_compositional_mixed :
    Scan.LineBreak "x<\"s\nt\"1.//c".toList "\n.2=@\n#".toList ∧
      (Scan.ofString ("x<\"s\nt\"1.//c" ++ "\n.2=@\n#")).Joins (Scan.ofString "x<\"s\nt\"1.//c")
        (Scan.ofString "\n.2=@\n#") (Shift.over "x<\"s\nt\"1.//c".toList) ∧
      Scan.ofString (String.join ["x<\"s\nt\"1.//c", "\n.2=@\n#"]) =
        Scan.inParts ["x<\"s\nt\"1.//c".toList, "\n.2=@\n#".toList] := by
  have tile : Element.tile "x<\"s\nt\"1.//c".toList =
      [.word ['x'], .punctuator .less, .string ['s', '\n', 't'], .number ['1'] [], .punctuator .dot,
        .comment ['c']] := by
    refine Element.tile_eq_cons rfl (Element.tile_eq_cons rfl (Element.tile_eq_cons rfl ?_))
    exact Element.tile_eq_cons rfl (Element.tile_eq_cons rfl
      (Element.tile_eq_cons rfl Element.tile_nil))
  have parted : Scan.LineBreak "x<\"s\nt\"1.//c".toList "\n.2=@\n#".toList := by
    refine ⟨Scan.closed_iff.2 ?_, rfl⟩
    rw [tile]
    decide
  have uncut := scan_compositional.2.1 "x<\"s\nt\"1.//c" "\n.2=@\n#" parted
  have chain : List.IsChain Scan.LineBreak ["x<\"s\nt\"1.//c".toList, "\n.2=@\n#".toList] :=
    List.isChain_pair.2 parted
  exact ⟨parted, scan_compositional.1 _ _ (by decide) uncut,
    scan_compositional.2.2 ["x<\"s\nt\"1.//c", "\n.2=@\n#"] chain⟩

end LoxScan
