import LoxScan.Proofs.Grammar
import LoxScan.Proofs.Placement
import Mathlib.Data.List.Forall2

/-!
# A scan is the longest-match reading

The grammar fixes the pieces of a source, and this module says what a scan makes of them. Each piece
of a rule for punctuation, strings, numbers or words yields one token, each open string and each
stray character one report, and comments and blanks yield nothing. Nothing else is in a scan but the
token that marks the end.

What a piece yields is stated on the piece alone: its rule, its text and the offset at which it
begins. Only words need more, for a word is a keyword exactly if it is reserved, and then the one
that is named by the word in upper case.

* **`yields_token`**, **`reports_fault`**: what one place in a scan tells of its piece.
* **`scan_longest_match`**: the whole scan, read off the one longest-match reading of the source.
-/

namespace LoxScan

open Utf8

-- ── What a piece yields ─────────────

namespace Rule

/-- The rules whose pieces become tokens. -/
def isToken : Rule → Bool
  | punctuation | string | number | word => true
  | comment | blank | openString | stray => false

/-- The rules whose pieces are reported. -/
def isFault : Rule → Bool
  | openString | stray => true
  | punctuation | string | number | word | comment | blank => false

/-- The kind of a piece: that of its spelling for a punctuator, and for a word a keyword exactly if
it is reserved, the one that is named by the word in upper case. -/
def Classifies (rule : Rule) (taken : List Char) (kind : Kind) : Prop :=
  match rule with
  | punctuation => ∃ p, kind = .punctuator p ∧ p.spelling.toList = taken
  | string => kind = .string
  | number => kind = .number
  | word =>
    (kind.isKeyword = true ↔ String.ofList taken ∈ Keyword.reserved) ∧
      (kind.isKeyword = true → kind.name = String.ofList (taken.map Char.toUpper)) ∧
      (kind.isKeyword = false → kind = .identifier)
  | comment | blank | openString | stray => False

end Rule

namespace Piece

/-- A token is what a piece yields: its kind, its text and its byte range. -/
structure Yields (p : Piece) (t : Token) : Prop where
  kind : p.rule.Classifies p.text t.kind
  lexeme : t.lexeme.toList = p.text
  start : t.span.start.toNat = p.start
  stop : t.span.stop.toNat = p.start + byteLength p.text

/-- A report is what a piece gives rise to: the code of its rule and its byte range. -/
structure Reports (p : Piece) (d : Diagnostic) : Prop where
  code : d.code.map Code.text = some (if p.rule = .openString then "E0001" else "E0002")
  span : ∃ span, d.span = some span ∧ span.start.toNat = p.start ∧
    span.stop.toNat = p.start + byteLength p.text

end Piece

-- ── Words ───────────────────────────

/-- A word is of the keyword that it spells, and else an identifier. -/
theorem Kind.classifies_ofWord (letters : List Char) :
    Rule.word.Classifies letters (Kind.ofWord (String.ofList letters)) := by
  cases found : Keyword.ofSpelling? (String.ofList letters) with
  | some k =>
      rw [Kind.ofWord_of_some found]
      have spelled : k.spelling = String.ofList letters := Keyword.ofSpelling?_eq_some_iff.1 found
      refine ⟨⟨fun _ => ?_, fun _ => rfl⟩, fun _ => ?_, nofun⟩
      · exact Keyword.mem_reserved_iff.2 ⟨k, found⟩
      · show Keyword.name k = _
        rw [Keyword.name_eq, spelled, String.toList_ofList]
  | none =>
      rw [Kind.ofWord_of_none found]
      refine ⟨⟨nofun, fun reserved => ?_⟩, nofun, fun _ => rfl⟩
      obtain ⟨k, looked⟩ := Keyword.mem_reserved_iff.1 reserved
      exact nomatch found.symm.trans looked

-- ── What one place tells ────────────

namespace Placed

variable {q : Placed}

theorem yields_of_classifies (fits : q.stop.offset ≤ Word.largest) {kind : Kind}
    (h : q.element.rule.Classifies q.element.text kind) (literal : Option Literal) :
    q.piece.Yields (q.token kind literal) :=
  ⟨h, String.toList_ofList, (toNat_span fits).1, (toNat_span fits).2⟩

theorem yields_token (fits : q.stop.offset ≤ Word.largest) (h : q.element.rule.isToken = true) :
    ∃ t, Finding.ofPlaced? q = some (.token t) ∧ q.piece.Yields t := by
  obtain ⟨e, start⟩ := q
  cases e with
  | punctuator p => exact ⟨_, rfl, yields_of_classifies fits ⟨p, rfl, rfl⟩ _⟩
  | string body => exact ⟨_, rfl, yields_of_classifies fits (by rfl) _⟩
  | number whole fraction => exact ⟨_, rfl, yields_of_classifies fits (by rfl) _⟩
  | word letters => exact ⟨_, rfl, yields_of_classifies fits (Kind.classifies_ofWord letters) _⟩
  | _ => exact nomatch h

theorem reports_fault (fits : q.stop.offset ≤ Word.largest) (h : q.element.rule.isFault = true) :
    ∃ f, Finding.ofPlaced? q = some (.fault f) ∧ q.piece.Reports f.toDiagnostic := by
  obtain ⟨e, start⟩ := q
  cases e with
  | openString body => exact ⟨_, rfl, rfl, _, rfl, toNat_span fits⟩
  | stray c => exact ⟨_, rfl, rfl, _, rfl, toNat_span fits⟩
  | _ => exact nomatch h

theorem token?_eq_none (h : q.element.rule.isToken = false) :
    (Finding.ofPlaced? q).bind Finding.token? = none := by
  obtain ⟨e, start⟩ := q
  cases e with
  | comment body => rfl
  | blank c => rfl
  | openString body => rfl
  | stray c => rfl
  | _ => exact nomatch h

theorem fault?_eq_none (h : q.element.rule.isFault = false) :
    (Finding.ofPlaced? q).bind Finding.fault? = none := by
  obtain ⟨e, start⟩ := q
  cases e with
  | openString body => exact nomatch h
  | stray c => exact nomatch h
  | _ => rfl

end Placed

-- ── What a row of places tells ──────

/-- If places of some rules tell one thing each and all others nothing, a row of places tells what
its pieces of these rules do, in order. -/
theorem forall₂_filterMap {α : Type} {rules : Rule → Bool} {tells : Piece → α → Prop}
    {told : Placed → Option α} {places : List Placed}
    (one : ∀ q ∈ places, rules q.element.rule = true →
      ∃ a, told q = some a ∧ tells q.piece a)
    (untold : ∀ q ∈ places, rules q.element.rule = false → told q = none) :
    List.Forall₂ tells ((places.map Placed.piece).filter (rules ·.rule))
      (places.filterMap told) := by
  induction places with
  | nil => exact List.Forall₂.nil
  | cons q places ih =>
      have later := ih (fun r hr => one r (List.mem_cons_of_mem q hr))
        (fun r hr => untold r (List.mem_cons_of_mem q hr))
      by_cases counts : rules q.element.rule = true
      · obtain ⟨a, found, tell⟩ := one q List.mem_cons_self counts
        rw [List.map_cons, List.filter_cons_of_pos (by exact counts),
          List.filterMap_cons_some found]
        exact List.Forall₂.cons tell later
      · rw [List.map_cons, List.filter_cons_of_neg (by exact counts)]
        rw [Bool.not_eq_true] at counts
        rw [List.filterMap_cons_none (untold q List.mem_cons_self counts)]
        exact later

section Rows

variable {places : List Placed} (fits : ∀ q ∈ places, q.stop.offset ≤ Word.largest)
include fits

theorem forall₂_yields :
    List.Forall₂ Piece.Yields ((places.map Placed.piece).filter (·.rule.isToken))
      ((places.filterMap Finding.ofPlaced?).filterMap Finding.token?) := by
  rw [List.filterMap_filterMap]
  refine forall₂_filterMap ?_ fun q _ => Placed.token?_eq_none
  intro q hq token
  obtain ⟨t, found, yields⟩ := Placed.yields_token (fits q hq) token
  exact ⟨t, by rw [found]; rfl, yields⟩

theorem forall₂_reports :
    List.Forall₂ Piece.Reports ((places.map Placed.piece).filter (·.rule.isFault))
      (((places.filterMap Finding.ofPlaced?).filterMap Finding.fault?).map Fault.toDiagnostic) := by
  rw [List.filterMap_filterMap, List.map_filterMap]
  refine forall₂_filterMap ?_ ?_
  · intro q hq fault
    obtain ⟨f, found, reports⟩ := Placed.reports_fault (fits q hq) fault
    exact ⟨f.toDiagnostic, by rw [found]; rfl, reports⟩
  · intro q _ other
    rw [Placed.fault?_eq_none other]
    rfl

end Rows

-- ── The whole scan ──────────────────

/-- A scan of a source of a given size tells what its pieces yield and report, and no more: one
token for each piece of a token rule, in order, then one for the end of the input, and one report
for each piece of a fault rule, in order. -/
structure Scan.Tells (s : Scan) (pieces : List Piece) (size : Nat) : Prop where
  tokens : ∃ tokens last, s.tokens = tokens ++ [last] ∧
    List.Forall₂ Piece.Yields (pieces.filter (·.rule.isToken)) tokens ∧
    last.kind = .eof ∧ last.lexeme = "" ∧
    last.span.start.toNat = size ∧ last.span.stop.toNat = size
  reports : List.Forall₂ Piece.Reports (pieces.filter (·.rule.isFault)) s.diagnostics

/-- **A scan is the longest-match reading.** Taking the longest match again and again reads a source
in exactly one way, the pieces make up the source, and the scan tells what they yield and report. -/
theorem scan_longest_match (source : String) (short : source.utf8ByteSize < Word.largest) :
    ∃ pieces, Reading 0 source.toList pieces ∧
      (∀ others, Reading 0 source.toList others → others = pieces) ∧
      pieces.flatMap Piece.text = source.toList ∧
      (Scan.ofString source).Tells pieces source.utf8ByteSize := by
  have fits : ∀ q ∈ Placed.lay .origin (Element.tile source.toList),
      q.stop.offset ≤ Word.largest := by
    intro q hq
    have bound := Placed.stop_offset_le hq
    rw [byteLength_toList] at bound
    omega
  have reading := reading_tile .origin source.toList
  have finish : (Scan.ofString source).eof.span.start.toNat = source.utf8ByteSize := by
    rw [← byteLength_toList] at short ⊢
    exact Scan.start_eof short
  exact ⟨_, reading, fun others => reading_unique reading, reading.flatMap_text,
    ⟨_, _, rfl, forall₂_yields fits, rfl, rfl, finish, finish⟩, forall₂_reports fits⟩

/-- A source with every rule in it, and with signs, points and quotes that could be cut
otherwise. -/
theorem scan_longest_match_mixed :
    "if!==x_1 1.5.2;//é\n\"a\nb\"ü \"c".utf8ByteSize < Word.largest ∧
      ∃ pieces, Reading 0 "if!==x_1 1.5.2;//é\n\"a\nb\"ü \"c".toList pieces ∧
        (∀ others, Reading 0 "if!==x_1 1.5.2;//é\n\"a\nb\"ü \"c".toList others →
          others = pieces) ∧
        pieces.flatMap Piece.text = "if!==x_1 1.5.2;//é\n\"a\nb\"ü \"c".toList ∧
        (Scan.ofString "if!==x_1 1.5.2;//é\n\"a\nb\"ü \"c").Tells pieces
          "if!==x_1 1.5.2;//é\n\"a\nb\"ü \"c".utf8ByteSize :=
  ⟨by decide, scan_longest_match _ (by decide)⟩

end LoxScan
