import LoxScan.Proofs.Positions
import LoxScan.Proofs.Streams
import LoxScan.Run.Script

/-!
# Diagnostics on the error stream

An emitter shows the diagnostics that it is given one by one, each on a line of its own, in pieces,
and says last how many it was not given. Over a whole queue this makes a row of actions
(`showing_eq`), and on streams that do not fail the row leaves its bytes on the error stream and
nothing on the output, as scanning a text leaves bytes on the output and nothing on the error
stream.

A line is a line: it goes over no line feed but the one that ends it, because neither a position nor
a message of a fault has any. So what is on the error stream can be cut into the lines that were
written.

* **`showing_eq`**: what is shown of a queue is a line for every kept diagnostic, in order of
  position, and a line that counts the others, if there are any.
* **`warning_showing`**, **`output_showing`**: what this adds to the two streams.
* **`exists_lineBytes`**, **`exists_noteLine`**: each of these lines is one line.
-/

namespace LoxScan

open Utf8

-- ── What an emitter adds ────────────

namespace Emitter

/-- The bytes of texts that are written one after another. -/
def bytesOf (texts : List String) : List UInt8 :=
  texts.flatMap fun text => encode text.toList

/-- The bytes of the line of a diagnostic. -/
def lineBytes (colored : Bool) (d : Diagnostic) : List UInt8 :=
  bytesOf (pieces colored d)

/-- The bytes of the line that counts what is not shown. -/
def noteBytes (colored : Bool) (count : Nat) : List UInt8 :=
  bytesOf (notePieces colored count)

theorem toList_writeAll (actions : Array Action) (texts : List String) :
    (Writer.writeAll actions texts).toList = actions.toList ++ texts.map Action.warn := by
  induction texts generalizing actions with
  | nil => simp [Writer.writeAll]
  | cons text texts ih =>
      show (Writer.writeAll (actions.push (.warn text)) texts).toList = _
      rw [ih, Array.toList_push, List.append_assoc]
      rfl

/-- An emitter that writes later writes the lines of its diagnostics in order, and counts them. -/
theorem reportAll_eq (e : Emitter (Array Action)) (ds : List Diagnostic) :
    (Reporter.reportAll e ds).writer.toList =
        e.writer.toList ++ ds.flatMap (fun d => (pieces e.colored d).map Action.warn) ∧
      (Reporter.reportAll e ds).colored = e.colored := by
  induction ds generalizing e with
  | nil => simp
  | cons d ds ih =>
      obtain ⟨writer, colored⟩ := ih (e.report d)
      have first : (e.report d).writer.toList =
          e.writer.toList ++ (pieces e.colored d).map Action.warn := toList_writeAll ..
      rw [first, List.append_assoc] at writer
      exact ⟨writer, colored⟩

end Emitter

namespace Script

/-- **What is shown.** If there are faults, a line for every kept one, in order of position, a line
that counts the others, if there are any, and the counts in the log. -/
theorem showing_eq (config : Config) (q : Queue) :
    showing config q =
      if q.errorCount = 0 then []
      else
        q.flush.1.flatMap (fun d =>
          (Emitter.pieces (config.color.colors false) d).map Action.warn) ++
          (Emitter.notePieces (config.color.colors false) q.suppressed).map Action.warn ++
          [.flushWarnings, .log (.faultsShown q.flush.1.length q.suppressed)] := by
  let fresh : Emitter (Array Action) := emitter config #[]
  obtain ⟨writer, colored⟩ := Emitter.reportAll_eq fresh q.flush.1
  have count : (Reporter.reportAll fresh q.flush.1).errorCount = q.flush.1.length :=
    (Reporter.errorCount_reportAll fresh q.flush.1).trans (Nat.zero_add _)
  have collectedCount : (collected config q).errorCount = q.flush.1.length := count
  have collectedWriter : (collected config q).writer.toList =
      q.flush.1.flatMap (fun d => (Emitter.pieces (config.color.colors false) d).map Action.warn) ++
        (Emitter.notePieces (config.color.colors false) q.suppressed).map Action.warn ++
        [.flushWarnings] := by
    show (Array.push (Writer.writeAll (Reporter.reportAll fresh q.flush.1).writer _) _).toList = _
    rw [Array.toList_push, Emitter.toList_writeAll, writer, colored]
    rfl
  have evidence : Reporter.guarantee? q = Guarantee.ofCount? q.errorCount := rfl
  rw [showing, collectedWriter, collectedCount, evidence]
  cases q.errorCount with
  | zero => rfl
  | succ n => simp [Guarantee.ofCount?]

-- ── What is shown and what is printed ──

/-- What is shown of a queue leaves the output alone. -/
theorem output_showing (config : Config) (q : Queue) :
    (showing config q).flatMap Action.output = [] ∧ .flush ∉ showing config q := by
  rw [showing_eq]
  split
  case isTrue => exact ⟨rfl, List.not_mem_nil⟩
  case isFalse => simp [List.flatMap_assoc, List.flatMap_map]

/-- Without a log on it, the error stream holds the lines of the kept diagnostics and the count of
the others. -/
theorem warning_showing (config : Config) (q : Queue) :
    (showing config q).flatMap (Action.warning fun _ => none) =
      q.flush.1.flatMap (Emitter.lineBytes (config.color.colors false)) ++
        Emitter.noteBytes (config.color.colors false) q.suppressed := by
  rw [showing_eq]
  split
  case isTrue uncounted =>
    obtain ⟨size, suppressed⟩ : q.kept.size = 0 ∧ q.suppressed = 0 :=
      Nat.add_eq_zero_iff.1 uncounted
    have kept : q.toList = [] := List.eq_nil_of_length_eq_zero size
    rw [Queue.flush_eq_mergeSort, kept, suppressed, List.mergeSort_nil]
    rfl
  case isFalse =>
    have lines : ∀ d, ((Emitter.pieces (config.color.colors false) d).map Action.warn).flatMap
        (Action.warning fun _ => none) = Emitter.lineBytes (config.color.colors false) d := by
      intro d
      exact List.flatMap_map ..
    simp [List.flatMap_assoc, lines, List.flatMap_map, Emitter.noteBytes, Emitter.bytesOf]

section ScanText

variable {ρ : Type} [Reporter ρ] (config : Config) (text : List Char) (reporter : ρ)

/-- What is printed of a scan makes no flush. -/
theorem flush_not_mem_scanText : .flush ∉ (scanText config text reporter).1 := by
  simp [scanText, logging, printing]

/-- What is printed of a scan is the lines of its tokens. -/
theorem output_scanText :
    (scanText config text reporter).1.flatMap Action.output =
      (Scan.ofList text).tokens.flatMap fun t =>
        encode (t.dumpLine config.showLiterals).toList := by
  simp [scanText, logging, printing, List.flatMap_map]

/-- What is printed of a scan leaves the error stream alone, if there is no log on it. -/
theorem warning_scanText :
    (scanText config text reporter).1.flatMap (Action.warning fun _ => none) = [] := by
  simp [scanText, logging, printing, List.flatMap_map]

end ScanText

end Script

-- ── Lines that are shown ────────────

/-- The byte of an ASCII character is not in the encoding of a text without that character. -/
theorem not_mem_encode {b : UInt8} (ascii : b.toNat < 128) {text : List Char}
    (lacks : Char.ofNat b.toNat ∉ text) : b ∉ encode text := by
  intro inside
  obtain ⟨c, hc, hb⟩ := List.mem_flatMap.1 inside
  rw [← toNat_eq_of_mem_utf8EncodeChar hb ascii, Char.ofNat_toNat] at lacks
  exact lacks hc

theorem newline_not_mem_encode {text : List Char} (flat : '\n' ∉ text) : 10 ∉ encode text :=
  not_mem_encode (by decide) flat

/-- A text that goes over no line feed. -/
def Flat (s : String) : Prop :=
  '\n' ∉ s.toList

instance (s : String) : Decidable (Flat s) :=
  inferInstanceAs (Decidable (¬ _))

theorem Flat.append {s t : String} (hs : Flat s) (ht : Flat t) : Flat (s ++ t) := by
  rw [Flat, String.toList_append, List.mem_append]
  exact fun inside => inside.elim hs ht

theorem isDigit_of_mem_repr {n : Nat} {c : Char} (h : c ∈ (Nat.repr n).toList) :
    c.isDigit = true := by
  rw [Nat.repr, String.toList_ofList] at h
  exact Nat.isDigit_of_mem_toDigits (by decide) (by decide) h

theorem flat_repr (n : Nat) : Flat (Nat.repr n) :=
  fun inside => absurd (isDigit_of_mem_repr inside) (by decide)

theorem Style.flat_paint (style : Style) (colored : Bool) {text : String} (flat : Flat text) :
    Flat (style.paint colored text) := by
  have code : Flat style.code := by cases style <;> decide
  have reset : Flat Style.reset := by decide
  cases colored with
  | false => exact flat
  | true => exact (code.append flat).append reset

/-- A bracketed position has digits in it and the characters of its form. -/
theorem Diagnostic.of_mem_positionText {d : Diagnostic} {c : Char}
    (h : c ∈ d.positionText.toList) :
    c.isDigit = true ∨ c ∈ "[line :]".toList := by
  have form {s : String} (part : s.toList.all ("[line :]".toList.contains ·) = true)
      (inside : c ∈ s.toList) : c.isDigit = true ∨ c ∈ "[line :]".toList :=
    Or.inr (List.contains_iff_mem.1 (List.all_eq_true.1 part c inside))
  rw [positionText] at h
  split at h
  case h_1 column _ =>
    simp only [String.toList_append, List.mem_append] at h
    rcases h with (((h | h) | h) | h) | h
    · exact form (by decide) h
    · exact Or.inl (isDigit_of_mem_repr h)
    · exact form (by decide) h
    · exact Or.inl (isDigit_of_mem_repr h)
    · exact form (by decide) h
  case h_2 =>
    simp only [String.toList_append, List.mem_append] at h
    rcases h with (h | h) | h
    · exact form (by decide) h
    · exact Or.inl (isDigit_of_mem_repr h)
    · exact form (by decide) h

theorem Diagnostic.flat_positionText (d : Diagnostic) : Flat d.positionText :=
  fun inside => absurd (of_mem_positionText inside) (by decide)

theorem Fault.Cause.flat_message (cause : Fault.Cause) : Flat cause.message := by
  cases cause with
  | unexpectedCharacter c =>
      show Flat "Unexpected character"
      decide
  | unterminatedString => decide

namespace Emitter

theorem flat_label (d : Diagnostic) : Flat (label d) := by
  rw [label]
  split
  case h_1 code _ => cases code <;> decide
  case h_2 => decide

/-- The bytes of texts of which only the last has a line feed, at its end. -/
theorem exists_bytesOf {texts : List String} {last : String} (flat : ∀ text ∈ texts, Flat text)
    (ended : Flat last) :
    ∃ body, bytesOf (texts ++ [last ++ "\n"]) = body ++ [10] ∧ 10 ∉ body := by
  refine ⟨bytesOf (texts ++ [last]), ?_, ?_⟩
  · have newline : "\n".toList = ['\n'] := by decide
    simp only [bytesOf, List.flatMap_append, List.flatMap_singleton, String.toList_append, newline,
      encode_append, List.append_assoc]
    rfl
  · intro inside
    obtain ⟨text, ht, hb⟩ := List.mem_flatMap.1 inside
    refine newline_not_mem_encode ?_ hb
    rcases List.mem_append.1 ht with ht | ht
    · exact flat text ht
    · obtain rfl := List.mem_singleton.1 ht
      exact ended

/-- The line of a fault is one line. -/
theorem exists_lineBytes (colored : Bool) (f : Fault) :
    ∃ body, lineBytes colored f.toDiagnostic = body ++ [10] ∧ 10 ∉ body := by
  have separator : Flat (f.toDiagnostic.location ++ ": ") := by
    show Flat ("" ++ ": ")
    decide
  have head : ∀ text ∈ [Style.bold.paint colored f.toDiagnostic.positionText, " ",
      Style.boldRed.paint colored (label f.toDiagnostic)], Flat text := by
    intro text ht
    simp only [List.mem_cons, List.not_mem_nil, or_false] at ht
    rcases ht with rfl | rfl | rfl
    · exact Style.bold.flat_paint colored f.toDiagnostic.flat_positionText
    · decide
    · exact Style.boldRed.flat_paint colored (flat_label _)
  exact exists_bytesOf head (separator.append f.cause.flat_message)

/-- The line that counts what is not shown. -/
def noteLine (colored : Bool) (count : Nat) : List UInt8 :=
  encode (Style.bold.paint colored "note" ++ ": " ++ Nat.repr count ++ " more " ++
    (if count = 1 then "error"
      else "errors") ++ " not shown (raise --error-limit to see them)\n").toList

theorem noteBytes_eq (colored : Bool) {count : Nat} (nonzero : count ≠ 0) :
    noteBytes colored count = noteLine colored count := by
  have word : " more error" ++ (if count = 1 then "" else "s") =
      " more " ++ (if count = 1 then "error" else "errors") := by
    split <;> decide
  have note : notePieces colored count = [Style.bold.paint colored "note",
      ": " ++ Nat.repr count ++ (" more " ++ (if count = 1 then "error" else "errors")) ++
        " not shown (raise --error-limit to see them)\n"] := by
    rw [notePieces, if_neg nonzero, ← word, ← String.append_assoc]
  rw [noteBytes, note, noteLine]
  simp [bytesOf]

/-- The line that counts what is not shown, if there is anything. -/
def noteLines (colored : Bool) (count : Nat) : List (List UInt8) :=
  if count = 0 then [] else [noteLine colored count]

theorem flatten_noteLines (colored : Bool) (count : Nat) :
    (noteLines colored count).flatten = noteBytes colored count := by
  rw [noteLines]
  split
  case isTrue uncounted =>
    subst uncounted
    rfl
  case isFalse nonzero => rw [List.flatten_singleton, noteBytes_eq colored nonzero]

/-- The line that counts what is not shown is one line. -/
theorem exists_noteLine (colored : Bool) (count : Nat) :
    ∃ body, noteLine colored count = body ++ [10] ∧ 10 ∉ body := by
  have word : Flat (if count = 1 then "error" else "errors") := by
    split <;> decide
  have separator : Flat ": " := by decide
  have more : Flat " more " := by decide
  have hint : Flat " not shown (raise --error-limit to see them)" := by decide
  have counted := (((separator.append (flat_repr count)).append more).append word).append hint
  have note : ∀ text ∈ [Style.bold.paint colored "note"], Flat text := by
    intro text ht
    obtain rfl := List.mem_singleton.1 ht
    exact Style.bold.flat_paint colored (by decide)
  obtain ⟨body, line, flat⟩ := exists_bytesOf note counted
  refine ⟨body, ?_, flat⟩
  rw [← line, noteLine]
  have newline : " not shown (raise --error-limit to see them)\n" =
      " not shown (raise --error-limit to see them)" ++ "\n" := by decide
  simp [bytesOf, newline]

end Emitter

end LoxScan
