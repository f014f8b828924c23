import LoxScan.Proofs.Concatenation
import LoxScan.Proofs.LossyDecoding
import LoxScan.Proofs.Reports

/-!
# Damage that stays on its line

A script need not be text: each malformed piece of it is scanned as a replacement character. But no
piece goes over a line feed, so a script can be cut at any line feed before it is decoded, and what
is damaged on one side does not show on the other. Nor does anything else. A scan goes over a line
feed only within a string, and a line feed leaves nothing behind but one more line: what comes after
it keeps its columns.

So a run over a script is a run over what is before a line feed and then one over what is after it,
some lines further down, and lines are counted in the bytes of the script, whatever becomes of the
bytes between them.

* **`ofList_append_newline`**: a scan without an open string can be taken up again after a line
  feed.
* **`faultsOf_append_newline`**: so the faults of a script are those of two parts of it.
* **`standsIn_of_mem_faultsOf`**: the line of a fault is counted in the bytes before it.
* **`damaged_lines_part`**: this is all that the two parts of a script have to do with each other.
-/

namespace LoxScan

open Utf8

-- ── Scanning on after a line feed ───

namespace Scan

variable {a : List Char}

/-- The elements after a line feed are those of the text after it. -/
theorem tile_append_newline (closed : (ofList a).Closed) (rest : List Char) :
    Element.tile (a ++ ['\n'] ++ rest) = Element.tile (a ++ ['\n']) ++ Element.tile rest := by
  have before := uncut_iff.1 (uncut_of_closed closed [])
  have whole := uncut_iff.1 (uncut_of_closed closed rest)
  rw [List.append_assoc, List.singleton_append, whole, before, Element.tile_newline,
    Element.tile_newline, Element.tile_nil, List.append_assoc]
  rfl

/-- Nothing is found in a line feed. -/
theorem findings_concat_newline (closed : (ofList a).Closed) :
    (ofList (a ++ ['\n'])).findings = (ofList a).findings := by
  show (Placed.lay .origin (Element.tile (a ++ ['\n']))).filterMap Finding.ofPlaced? = _
  rw [uncut_iff.1 (uncut_of_closed closed []), Placed.lay_append, List.filterMap_append,
    Element.tile_newline, Element.tile_nil]
  exact List.append_nil _

/-- **After a line feed.** A text without an open string and a line feed do nothing to the scan of
what comes after them but move it on. -/
theorem ofList_append_newline (closed : (ofList a).Closed) (rest : List Char) :
    ofList (a ++ ['\n'] ++ rest) =
      (ofList a).followedBy ((ofList rest).moved (Shift.over (a ++ ['\n']))) := by
  rw [ofList_append (tile_append_newline closed rest), followedBy, findings_concat_newline closed]
  rfl

end Scan

/-- After a line feed, columns are not moved. -/
theorem Shift.columns_over_concat_newline (a : List Char) :
    (Shift.over (a ++ ['\n'])).columns = 0 := by
  show lastLineLength (encode (a ++ ['\n'])) = 0
  rw [encode_append]
  exact lastLineLength_concat_newline _

/-- Over a line feed, lines are moved by one more. -/
theorem Shift.lines_over_decodeLossy (bytes : List UInt8) :
    (Shift.over (decodeLossy bytes ++ ['\n'])).lines = 1 + lineFeeds bytes := by
  show lineFeeds (encode (decodeLossy bytes ++ ['\n'])) = _
  rw [encode_append, lineFeeds_append, lineFeeds_decodeLossy, Nat.add_comm]
  rfl

-- ── Lines further down ──────────────

namespace Diagnostic

/-- A diagnostic that stands some lines further down. -/
def lowered (lines : Nat) (d : Diagnostic) : Diagnostic :=
  { d with line := d.line.plus lines }

/-- What is shown of a diagnostic that is moved on by whole lines stands further down, and is
otherwise the same. -/
theorem lineBytes_moved (colored : Bool) {d : Shift} (whole : d.columns = 0) (g : Diagnostic) :
    Emitter.lineBytes colored (g.moved d) = Emitter.lineBytes colored (g.lowered d.lines) := by
  have columns : (g.column.map fun column => if g.line = 1 then column.plus d.columns else column) =
      g.column := by
    have unmoved :
        ∀ column : Word, (if g.line = 1 then column.plus d.columns else column) = column := by
      intro column
      split
      case isTrue =>
        rw [whole]
        exact Word.saturate_toNat column
      case isFalse => rfl
    simp only [unmoved]
    exact Option.map_id'
  rw [moved, columns]
  rfl

end Diagnostic

-- ── Scripts in two parts ────────────

namespace Script

/-- A fault stands in a script where its bytes can be cut: on the line that has so many line feeds
before it, and in the column that has so many bytes of decoded text before it. -/
def StandsIn (bytes : List UInt8) (d : Diagnostic) : Prop :=
  ∃ before after, bytes = before ++ after ∧
    decodeLossy bytes = decodeLossy before ++ decodeLossy after ∧
    d.position = (1 + lineFeeds before, 1 + lastLineLength (encode (decodeLossy before)))

/-- **Lines of a script.** Every fault in a script stands on a line of its bytes. -/
theorem standsIn_of_mem_faultsOf {bytes : List UInt8}
    (short : byteLength (decodeLossy bytes) < Word.largest)
    {d : Diagnostic} (h : d ∈ faultsOf bytes) : StandsIn bytes d := by
  -- Where the decoded text before the fault ends, the bytes can be cut.
  have stands {u v : List Char} (whole : decodeLossy bytes = u ++ v)
      (position : d.position =
        ((Position.origin.advance u).line, (Position.origin.advance u).column)) :
          StandsIn bytes d := by
    obtain ⟨before, after, cut, rfl, rfl⟩ := exists_cut whole
    refine ⟨before, after, cut, whole, ?_⟩
    rw [position, Position.line_advance, Position.column_advance, lineFeeds_decodeLossy]
    rfl
  obtain ⟨q, hq, f, found, rfl⟩ := Scan.exists_of_mem_diagnostics h
  obtain ⟨n, noticed, position⟩ := Scan.position_of_fault short hq found
  obtain ⟨u, v, whole, between⟩ := Placed.between_of_mem_lay hq
  rcases Finding.cases_of_fault found with ⟨c, he, -⟩ | ⟨body, he, -⟩
  · rw [Placed.noticed?, he] at noticed
    obtain rfl := Option.some.inj noticed
    rw [between.start] at position
    exact stands (whole.trans (List.append_assoc ..)) position
  · rw [Placed.noticed?, he] at noticed
    obtain rfl := Option.some.inj noticed
    rw [between.stop] at position
    exact stands whole position

variable {first : List UInt8}

theorem decodeLossy_parts (first second : List UInt8) :
    decodeLossy (first ++ 10 :: second) = decodeLossy first ++ ['\n'] ++ decodeLossy second := by
  rw [decodeLossy_append_newline, List.append_assoc]
  rfl

/-- **Faults of the parts.** They are all that is found in the whole, those of the second part moved
on. -/
theorem faultsOf_append_newline (closed : (Scan.ofList (decodeLossy first)).Closed)
    (second : List UInt8) :
    faultsOf (first ++ 10 :: second) =
      faultsOf first ++
        (faultsOf second).map (Diagnostic.moved (Shift.over (decodeLossy first ++ ['\n']))) := by
  rw [faultsOf, decodeLossy_parts, Scan.ofList_append_newline closed, Scan.diagnostics_followedBy,
    Scan.diagnostics_moved]
  rfl

/-- The lines of some tokens in a dump. -/
def dumpLines (config : Config) (tokens : List Token) : List UInt8 :=
  tokens.flatMap fun t => encode (t.dumpLine config.showLiterals).toList

/-- What a run over a script without a limit prints is the lines of its tokens. -/
theorem out_limited_zero (config : Config) (path : String) (bytes : List UInt8) :
    (limited config 0 path bytes).1.out.toList =
      dumpLines config (Scan.ofList (decodeLossy bytes)).tokens := by
  rw [limited, out_perform, output_scanText, Sink.toList_grown]
  rfl

theorem dumpLine_eof (s : Scan) (showLiterals : Bool) : s.eof.dumpLine showLiterals = "EOF \n" := by
  have brief : s.eof.brief = "EOF " := rfl
  have text : s.eof.text = "EOF " := rfl
  rw [Token.dumpLine, brief, text, ite_self]
  rfl

/-- The line of the end token comes last. -/
theorem dumpLines_tokens (config : Config) (s : Scan) :
    dumpLines config s.tokens = dumpLines config s.tokens.dropLast ++ encode "EOF \n".toList := by
  rw [Scan.tokens, List.dropLast_concat, dumpLines, List.flatMap_append,
    List.flatMap_singleton, dumpLine_eof]
  rfl

/-- A line of a dump does not show where its token stands. -/
theorem dumpLines_moved (config : Config) (d : Shift) (tokens : List Token) :
    dumpLines config (tokens.map (Token.moved d)) = dumpLines config tokens :=
  List.flatMap_map ..

/-- **Dumps of the parts.** They are the dump of the whole, but for the end token of the first. -/
theorem dumpLines_append_newline (config : Config)
    (closed : (Scan.ofList (decodeLossy first)).Closed)
    (second : List UInt8) :
    dumpLines config (Scan.ofList (decodeLossy (first ++ 10 :: second))).tokens =
      dumpLines config (Scan.ofList (decodeLossy first)).tokens.dropLast ++
        dumpLines config (Scan.ofList (decodeLossy second)).tokens := by
  rw [decodeLossy_parts, Scan.ofList_append_newline closed, Scan.tokens_followedBy,
    Scan.tokens_moved, dumpLines, List.flatMap_append]
  exact congrArg (_ ++ ·) (dumpLines_moved ..)

/-- What is shown of the faults of the second part, when they are found in the whole, is what is
shown of them further down. -/
theorem lines_moved (colored : Bool) (first : List UInt8) (ds : List Diagnostic) :
    (ds.map (Diagnostic.moved (Shift.over (decodeLossy first ++ ['\n'])))).flatMap
        (Emitter.lineBytes colored) =
      (ds.map (Diagnostic.lowered (1 + lineFeeds first))).flatMap (Emitter.lineBytes colored) := by
  have whole := Shift.columns_over_concat_newline (decodeLossy first)
  rw [List.flatMap_map, List.flatMap_map, ← Shift.lines_over_decodeLossy]
  exact List.flatMap_congr fun d _ => d.lineBytes_moved colored whole

/-- A run without a limit gives evidence of faults, exactly if there are any. -/
theorem exists_evidence (config : Config) (path : String) (bytes : List UInt8) :
    ∃ evidence, (limited config 0 path bytes).2 = .ok evidence ∧
      (evidence.isSome ↔ faultsOf bytes ≠ []) := by
  refine ⟨_, result_limited config 0 path bytes, ?_⟩
  rw [← List.length_pos_iff]
  split
  case isTrue counted => exact iff_of_true rfl counted
  case isFalse uncounted => exact iff_of_false Bool.false_ne_true uncounted

/-- What a run over a script has to do with runs over what is before a line feed in it and what is
after it, all of them without a limit. It prints what the first one prints, but for the line of its
end token, and then what the second one prints. It shows the faults that the first one shows, and
then those that the second one shows, as many lines further down as there are line feeds before the
second part. These are lines of the bytes, and there is room for them. And it gives evidence of
faults exactly if one of the two does. -/
structure Parted (config : Config) (path path₁ path₂ : String)
    (first second : List UInt8) : Prop where
  output : ∃ dump, (limited config 0 path₁ first).1.out.toList =
    dump ++ encode "EOF \n".toList ∧
    (limited config 0 path (first ++ 10 :: second)).1.out.toList =
      dump ++ (limited config 0 path₂ second).1.out.toList
  errorsFirst : (limited config 0 path₁ first).1.err.toList =
    (faultsOf first).flatMap (Emitter.lineBytes (config.color.colors false))
  errorsSecond : (limited config 0 path₂ second).1.err.toList =
    (faultsOf second).flatMap (Emitter.lineBytes (config.color.colors false))
  errors : (limited config 0 path (first ++ 10 :: second)).1.err.toList =
    (limited config 0 path₁ first).1.err.toList ++
      ((faultsOf second).map (Diagnostic.lowered (1 + lineFeeds first))).flatMap
        (Emitter.lineBytes (config.color.colors false))
  room : ∀ d ∈ faultsOf second, d.line.toNat + (1 + lineFeeds first) ≤ Word.largest
  stands : ∀ d ∈ faultsOf (first ++ 10 :: second), StandsIn (first ++ 10 :: second) d
  evidence : ∃ whole before after,
    (limited config 0 path (first ++ 10 :: second)).2 = .ok whole ∧
    (limited config 0 path₁ first).2 = .ok before ∧
    (limited config 0 path₂ second).2 = .ok after ∧
    (whole.isSome ↔ before.isSome ∨ after.isSome)

end Script

/-- **Damaged lines.** What is damaged in a script stays on its line. At a line feed that is in no
string, a run over a script falls into two. -/
theorem damaged_lines_part (config : Config) (path path₁ path₂ : String)
    (first second : List UInt8)
    (short : byteLength (decodeLossy (first ++ 10 :: second)) < Word.largest)
    (closed : (Scan.ofList (decodeLossy first)).Closed) :
    Script.Parted config path path₁ path₂ first second := by
  have lengths :
      byteLength (decodeLossy first ++ ['\n']) + byteLength (decodeLossy second) <
        Word.largest := by
    rw [← byteLength_append, ← Script.decodeLossy_parts]
    exact short
  have shortFirst : byteLength (decodeLossy first) < Word.largest := by
    rw [byteLength_append] at lengths
    omega
  have shortSecond : byteLength (decodeLossy second) < Word.largest := by omega
  have errorsOf {bytes : List UInt8} (path : String)
      (fits : byteLength (decodeLossy bytes) < Word.largest) :=
    Script.err_limited_of_le config 0 path fits (Or.inl rfl)
  have faults := Script.faultsOf_append_newline closed second
  refine ⟨?_, errorsOf path₁ shortFirst, errorsOf path₂ shortSecond, ?_, ?_, ?_, ?_⟩
  · refine ⟨Script.dumpLines config (Scan.ofList (decodeLossy first)).tokens.dropLast, ?_, ?_⟩
    · rw [Script.out_limited_zero, Script.dumpLines_tokens]
    · rw [Script.out_limited_zero, Script.out_limited_zero,
        Script.dumpLines_append_newline config closed]
  · rw [errorsOf path short, errorsOf path₁ shortFirst, faults, List.flatMap_append,
      Script.lines_moved]
  · intro d hd
    have fits := (Scan.room_diagnostics lengths d hd).1
    rw [Shift.lines_over_decodeLossy] at fits
    exact fits
  · exact fun d hd => Script.standsIn_of_mem_faultsOf short hd
  · obtain ⟨whole, wholeRun, wholeSome⟩ :=
      Script.exists_evidence config path (first ++ 10 :: second)
    obtain ⟨before, beforeRun, beforeSome⟩ := Script.exists_evidence config path₁ first
    obtain ⟨after, afterRun, afterSome⟩ := Script.exists_evidence config path₂ second
    refine ⟨whole, before, after, wholeRun, beforeRun, afterRun, ?_⟩
    rw [wholeSome, beforeSome, afterSome, faults, ne_eq, List.append_eq_nil_iff,
      List.map_eq_nil_iff, Classical.not_and_iff_not_or_not]

/-- A piece that is cut off before the line feed, what would go on with it after the line feed, and
faults on either side. -/
theorem damaged_lines_part_mixed :
    byteLength (decodeLossy ([64, 10, 0xE2, 0x82] ++ 10 :: [0xAC, 32, 35, 10, 34])) <
      Word.largest ∧
      (Scan.ofList (decodeLossy [64, 10, 0xE2, 0x82])).Closed ∧
      Script.Parted { color := .always } "a.lox" "b.lox" "c.lox" [64, 10, 0xE2, 0x82]
        [0xAC, 32, 35, 10, 34] := by
  have short : byteLength (decodeLossy ([64, 10, 0xE2, 0x82] ++ 10 :: [0xAC, 32, 35, 10, 34])) <
      Word.largest := by decide +kernel
  have text : decodeLossy [64, 10, 0xE2, 0x82] = ['@', '\n', '\uFFFD'] := by decide +kernel
  have tile : Element.tile ['@', '\n', '\uFFFD'] = [.stray '@', .blank '\n', .stray '\uFFFD'] :=
    Element.tile_eq_cons rfl (Element.tile_eq_cons rfl (Element.tile_eq_cons rfl Element.tile_nil))
  have closed : (Scan.ofList (decodeLossy [64, 10, 0xE2, 0x82])).Closed := by
    rw [text]
    refine Scan.closed_iff.2 ?_
    rw [tile]
    decide
  exact ⟨short, closed, damaged_lines_part _ "a.lox" "b.lox" "c.lox" _ _ short closed⟩

end LoxScan
