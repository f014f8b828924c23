import LoxScan.Proofs.Rendering
import LoxScan.Proofs.SideBySide
import LoxScan.Text.Editing

/-!
# Colours are decoration

Two emitters to which the same is done, one with colours and one without, write the same but for the
codes of styles. Deleting these codes from all that the first one has written gives what the second
one has written. That the codes are found again, and nothing else with them, rests on their mark:
each code begins with an escape, and no other text that an emitter writes has one, unless a location
or message brings it. A position, a word for an error and a note have none, and neither has the
message of a fault. So no code begins in one piece of the output and ends in another, and deleting
goes through the output piece by piece (`deleteAll_written`).

What an emitter writes is a row of contributions, one for each operation (`Holds.next`), so an
induction on the operations makes the run of the step. The counts do not look at colours at all.

The plain line of a diagnostic has two descriptions, one of the emitter and one of the diagnostic's
own text. They differ by the code, which stands in brackets right after the word for an error.

* **`deleteAll_paint`**: deleting codes from a coloured piece leaves the piece.
* **`lineBytes_false_eq`**: the plain line is the diagnostic's text with the code put in.
* **`colors_only_decorate`**: so after any operations colours have changed nothing but codes.
-/

namespace LoxScan

open Utf8

-- ── Codes of styles ─────────────────

namespace Style

/-- The bytes of the codes of styles. -/
def codes : List (List UInt8) :=
  ["\x1b[1;31m", "\x1b[1m", "\x1b[0m"].map fun code => encode code.toList

/-- Every code begins with an escape. -/
theorem head?_of_mem_codes : ∀ code ∈ codes, code.head? = some 27 := by
  decide

/-- No code begins with another one. -/
theorem eq_of_mem_codes : ∀ v ∈ codes, ∀ w ∈ codes, v <+: w → v = w := by
  decide

theorem code_mem_codes (style : Style) : encode style.code.toList ∈ codes := by
  cases style <;> decide

theorem reset_mem_codes : encode reset.toList ∈ codes := by
  decide

theorem deleteAll_code {code : List UInt8} (h : code ∈ codes) (rest : List UInt8) :
    deleteAll codes (code ++ rest) = deleteAll codes rest := by
  refine deleteAll_word h ?_ eq_of_mem_codes
  rintro rfl
  exact nomatch head?_of_mem_codes [] h

/-- A text without an escape is left as it is. -/
theorem deleteAll_plain {text : List Char} (lacks : '\x1b' ∉ text) (rest : List UInt8) :
    deleteAll codes (encode text ++ rest) = encode text ++ deleteAll codes rest :=
  deleteAll_append_of_lacks head?_of_mem_codes (not_mem_encode (by decide) lacks) rest

/-- **A coloured piece.** Without its codes it is the piece. -/
theorem deleteAll_paint (style : Style) {text : String} (lacks : '\x1b' ∉ text.toList)
    (rest : List UInt8) :
    deleteAll codes (encode (style.paint true text).toList ++ rest) =
      encode text.toList ++ deleteAll codes rest := by
  have painted : encode (style.paint true text).toList =
      encode style.code.toList ++ (encode text.toList ++ encode reset.toList) := by
    simp [paint]
  rw [painted, List.append_assoc, List.append_assoc, deleteAll_code style.code_mem_codes,
    deleteAll_plain lacks, deleteAll_code reset_mem_codes]

end Style

-- ── Lines ───────────────────────────

/-- Neither the location nor the message of a diagnostic has an escape. -/
structure Diagnostic.Unescaped (d : Diagnostic) : Prop where
  location : '\x1b' ∉ d.location.toList
  message : '\x1b' ∉ d.message.toList

namespace Emitter

theorem lineBytes_eq (colored : Bool) (d : Diagnostic) :
    lineBytes colored d =
      encode (Style.bold.paint colored d.positionText).toList ++ (encode [' '] ++
        (encode (Style.boldRed.paint colored (label d)).toList ++
          encode (d.explanation ++ "\n").toList)) := by
  simp [lineBytes, bytesOf, pieces]

/-- **One line.** Without its codes the coloured line of a diagnostic is the plain one. -/
theorem deleteAll_lineBytes {d : Diagnostic} (clean : d.Unescaped) (rest : List UInt8) :
    deleteAll Style.codes (lineBytes true d ++ rest) =
      lineBytes false d ++ deleteAll Style.codes rest := by
  have position : '\x1b' ∉ d.positionText.toList := fun inside =>
    absurd (Diagnostic.of_mem_positionText inside) (by decide)
  have word : '\x1b' ∉ (label d).toList := by
    rw [label]
    split
    case h_1 code _ => cases code <;> decide
    case h_2 => decide
  have explanation : '\x1b' ∉ (d.explanation ++ "\n").toList := by
    have separator : '\x1b' ∉ ": ".toList := by decide
    have newline : '\x1b' ∉ "\n".toList := by decide
    simp only [Diagnostic.explanation, String.toList_append, List.mem_append, not_or]
    exact ⟨⟨⟨clean.location, separator⟩, clean.message⟩, newline⟩
  simp only [lineBytes_eq, List.append_assoc]
  rw [Style.deleteAll_paint _ position, Style.deleteAll_plain (by decide),
    Style.deleteAll_paint _ word, Style.deleteAll_plain explanation]
  rfl

/-- The coloured note without its codes is the plain one. -/
theorem deleteAll_noteBytes (count : Nat) (rest : List UInt8) :
    deleteAll Style.codes (noteBytes true count ++ rest) =
      noteBytes false count ++ deleteAll Style.codes rest := by
  by_cases zero : count = 0
  · subst zero
    rfl
  · have note : '\x1b' ∉ "note".toList := by decide
    have counted : '\x1b' ∉ (": " ++ Nat.repr count ++ " more error" ++
        (if count = 1 then "" else "s") ++
          " not shown (raise --error-limit to see them)\n").toList := by
      have separator : '\x1b' ∉ ": ".toList := by decide
      have number : '\x1b' ∉ (Nat.repr count).toList := fun inside =>
        absurd (isDigit_of_mem_repr inside) (by decide)
      have more : '\x1b' ∉ " more error".toList := by decide
      have plural : '\x1b' ∉ (if count = 1 then "" else "s").toList := by split <;> decide
      have hint : '\x1b' ∉ " not shown (raise --error-limit to see them)\n".toList := by decide
      simp only [String.toList_append, List.mem_append, not_or]
      exact ⟨⟨⟨⟨separator, number⟩, more⟩, plural⟩, hint⟩
    simp only [noteBytes, notePieces, if_neg zero, bytesOf, List.flatMap_cons, List.flatMap_nil,
      List.append_nil, List.append_assoc]
    rw [Style.deleteAll_paint _ note, Style.deleteAll_plain counted]
    rfl

-- ── Operations ──────────────────────

namespace Operation

/-- What an operation brings along, a location or a message, has no escape. -/
def Unescaped : Operation → Prop
  | call (.report d) => d.Unescaped
  | call (.errorAt _ location message) => '\x1b' ∉ location.toList ∧ '\x1b' ∉ message.toList
  | call (.error _ message) => '\x1b' ∉ message.toList
  | _ => True

/-- The bytes that an operation writes. -/
def written (colored : Bool) : Operation → List UInt8
  | call c => c.reports.flatMap (lineBytes colored)
  | noteSuppressed count => noteBytes colored count
  | flush => []

/-- No report of a scan has an escape. -/
theorem unescaped_of_lex {source : String} {d : Diagnostic}
    (h : d ∈ (Scan.ofString source).diagnostics) : d.Unescaped := by
  obtain ⟨q, -, f, -, rfl⟩ := Scan.exists_of_mem_diagnostics h
  refine ⟨List.not_mem_nil, ?_⟩
  show '\x1b' ∉ f.cause.message.toList
  cases f.cause with
  | unexpectedCharacter c =>
      show '\x1b' ∉ "Unexpected character".toList
      decide
  | unterminatedString => decide

theorem Unescaped.reports {op : Operation} (h : op.Unescaped) :
    ∀ d ∈ op.reports, d.Unescaped := by
  intro d hd
  cases op with
  | call c =>
      cases c with
      | report e =>
          obtain rfl := List.mem_singleton.1 hd
          exact h
      | errorAt line location message =>
          obtain rfl := List.mem_singleton.1 hd
          exact ⟨h.1, h.2⟩
      | error line message =>
          obtain rfl := List.mem_singleton.1 hd
          exact ⟨List.not_mem_nil, h⟩
      | lex source => exact unescaped_of_lex hd
      | reset => exact absurd hd List.not_mem_nil
  | noteSuppressed count => exact absurd hd List.not_mem_nil
  | flush => exact absurd hd List.not_mem_nil

/-- **One operation.** What it writes in colour is, without codes, what it writes without. -/
theorem deleteAll_written {op : Operation} (clean : op.Unescaped) (rest : List UInt8) :
    deleteAll Style.codes (op.written true ++ rest) =
      op.written false ++ deleteAll Style.codes rest := by
  have lines (ds : List Diagnostic) (clean : ∀ d ∈ ds, d.Unescaped) :
      deleteAll Style.codes (ds.flatMap (lineBytes true) ++ rest) =
        ds.flatMap (lineBytes false) ++ deleteAll Style.codes rest := by
    induction ds with
    | nil => rfl
    | cons d ds ih =>
        rw [List.flatMap_cons, List.flatMap_cons, List.append_assoc, List.append_assoc,
          deleteAll_lineBytes (clean d List.mem_cons_self),
          ih fun e he => clean e (List.mem_cons_of_mem d he)]
  cases op with
  | call c => exact lines c.reports clean.reports
  | noteSuppressed count => exact deleteAll_noteBytes count rest
  | flush => rfl

/-- **Any operations.** What they write in colour is, without codes, what they write without. -/
theorem deleteAll_flatMap_written {ops : List Operation} (clean : ∀ op ∈ ops, op.Unescaped) :
    deleteAll Style.codes (ops.flatMap (written true)) = ops.flatMap (written false) := by
  induction ops with
  | nil => exact deleteAll_nil _
  | cons op ops ih =>
      rw [List.flatMap_cons, List.flatMap_cons, deleteAll_written (clean op List.mem_cons_self),
        ih fun later inside => clean later (List.mem_cons_of_mem op inside)]

end Operation

-- ── What an emitter has written ─────

/-- An emitter that has written some bytes to a sink with room for everything. -/
structure Holds (colored : Bool) (bytes : List UInt8) (e : Emitter Sink) : Prop where
  colored : e.colored = colored
  unlimited : e.writer.capacity = none
  held : e.writer.toList = bytes

theorem toList_writeAll_of_unlimited {s : Sink} (unlimited : s.capacity = none)
    (texts : List String) :
    (Writer.writeAll s texts).capacity = none ∧
      (Writer.writeAll s texts).toList = s.toList ++ bytesOf texts := by
  induction texts generalizing s with
  | nil => exact ⟨unlimited, (List.append_nil _).symm⟩
  | cons text texts ih =>
      have all : s.fitting (encode text.toList) = encode text.toList := by
        rw [Sink.fitting, unlimited]
      have later := ih (s := (s.write text).1) unlimited
      rw [Sink.toList_write, all, List.append_assoc] at later
      exact later

namespace Holds

variable {colored : Bool} {bytes : List UInt8} {e : Emitter Sink}

theorem writeAll (h : Holds colored bytes e) (texts : List String) (count : Nat) :
    Holds colored (bytes ++ bytesOf texts)
      { e with writer := Writer.writeAll e.writer texts, errorCount := count } := by
  obtain ⟨unlimited, held⟩ := toList_writeAll_of_unlimited h.unlimited texts
  rw [h.held] at held
  exact ⟨h.colored, unlimited, held⟩

/-- A report adds its line. -/
theorem report (h : Holds colored bytes e) (d : Diagnostic) :
    Holds colored (bytes ++ lineBytes colored d) (e.report d) := by
  have grown := h.writeAll (pieces e.colored d) (e.errorCount + 1)
  rw [h.colored] at grown
  rw [Emitter.report, h.colored]
  exact grown

theorem reportAll (h : Holds colored bytes e) (ds : List Diagnostic) :
    Holds colored (bytes ++ ds.flatMap (lineBytes colored)) (Reporter.reportAll e ds) := by
  induction ds generalizing bytes e with
  | nil => simpa using h
  | cons d ds ih =>
      rw [List.flatMap_cons, ← List.append_assoc]
      exact ih (h.report d)

/-- **One operation.** It adds what it writes. -/
theorem next (h : Holds colored bytes e) (op : Operation) :
    Holds colored (bytes ++ op.written colored) (e.next op) := by
  cases op with
  | call c =>
      show Holds colored _ (if c.resets then e.reset else Reporter.reportAll e c.reports)
      by_cases resets : c.resets = true
      · have unreported : c.reports = [] := by
          cases c with
          | reset => rfl
          | _ => exact nomatch resets
        rw [if_pos resets, Operation.written, unreported, List.flatMap_nil, List.append_nil]
        exact ⟨h.colored, h.unlimited, h.held⟩
      · rw [if_neg resets]
        exact h.reportAll c.reports
  | noteSuppressed count =>
      have grown := h.writeAll (notePieces e.colored count) e.errorCount
      rw [h.colored] at grown
      show Holds colored (bytes ++ noteBytes colored count) (e.noteSuppressed count)
      rw [noteSuppressed, h.colored]
      exact grown
  | flush =>
      rw [Operation.written, List.append_nil]
      exact ⟨h.colored, h.unlimited, h.held⟩

end Holds

/-- **Any operations.** On a sink with room for everything they leave what they write, one after
another. What they give back and what is counted does not depend on colours. -/
theorem stepAll_holds (colored : Bool) (ops : List Operation) :
    ∃ e, stepAll step { writer := ({} : Sink), colored } ops =
      .ok (ops.map Operation.answer, e) ∧
      Holds colored (ops.flatMap (Operation.written colored)) e ∧
      e.errorCount = (history ops).length := by
  induction ops using List.reverseRecOn with
  | nil => exact ⟨_, rfl, ⟨rfl, rfl, rfl⟩, rfl⟩
  | append_singleton ops op ih =>
      obtain ⟨e, done, holds, count⟩ := ih
      refine ⟨e.next op, ?_, ?_, ?_⟩
      · rw [List.map_append]
        exact stepAll_concat done (e.step_eq op)
      · rw [List.flatMap_append, List.flatMap_singleton]
        exact holds.next op
      · rw [errorCount_next, count, history, history, reportsSince_concat]
        split
        case isTrue => rfl
        case isFalse => exact List.length_append.symm

-- ── The plain line and the text of a diagnostic ──

end Emitter

/-- The text of a diagnostic, with its code in brackets right after the word for an error, if it has
one. -/
def Diagnostic.textWithCode (d : Diagnostic) : List Char :=
  match d.code with
  | some code => insertAfter "Error".toList ('[' :: code.text.toList ++ [']']) d.text.toList
  | none => d.text.toList

/-- The word for an error comes first after the position, which has no letter of it. -/
theorem Diagnostic.insertAfter_text (d : Diagnostic) (inserted : List Char) :
    insertAfter "Error".toList inserted d.text.toList =
      d.positionText.toList ++ ' ' :: ("Error".toList ++ (inserted ++ d.explanation.toList)) := by
  have blank : 'E' ∉ d.positionText.toList ++ [' '] := by
    intro inside
    rcases List.mem_append.1 inside with inside | inside
    · exact absurd (of_mem_positionText inside) (by decide)
    · exact absurd inside (by decide)
  have parts : d.text.toList =
      d.positionText.toList ++ [' '] ++ ('E' :: "rror".toList) ++ d.explanation.toList := by
    have word : " Error".toList = ' ' :: 'E' :: "rror".toList := by decide
    simp [text, word]
  have word : "Error".toList = 'E' :: "rror".toList := by decide
  rw [parts, word, insertAfter_append blank]
  simp

/-- **The plain line.** It is the text of the diagnostic with the code put in, and a line feed. -/
theorem Emitter.lineBytes_false_eq (d : Diagnostic) :
    lineBytes false d = encode (d.textWithCode ++ ['\n']) := by
  have newline : "\n".toList = ['\n'] := by decide
  cases known : d.code with
  | some code =>
      have bracket : ("Error[" ++ code.text ++ "]").toList =
          "Error".toList ++ ('[' :: code.text.toList ++ [']']) := by
        cases code <;> decide
      simp only [lineBytes_eq, label, Diagnostic.textWithCode, known, Diagnostic.insertAfter_text,
        bracket, Style.paint_false, String.toList_append, newline]
      simp
  | none =>
      have word : " Error".toList = ' ' :: "Error".toList := by decide
      simp only [lineBytes_eq, label, Diagnostic.textWithCode, known, Diagnostic.text, word,
        Style.paint_false, String.toList_append, newline]
      simp

-- ── Colours ─────────────────────────

/-- An emitter with colours beside one without, to which the same was done. What the one has written
is, without the codes of styles, what the other has written; both have counted the same, and give
the same evidence of errors. A diagnostic that is reported next adds its text with its code put in,
on a line of its own, to the plain output. -/
structure Emitter.DecoratedOnly (painted plain : Emitter Sink) : Prop where
  output : deleteAll Style.codes painted.writer.toList = plain.writer.toList
  errorCount : Reporter.errorCount painted = Reporter.errorCount plain
  guarantee : Reporter.guarantee? painted = Reporter.guarantee? plain
  line : ∀ d, (plain.report d).writer.toList = plain.writer.toList ++
    encode (d.textWithCode ++ ['\n'])

/-- **Colours are decoration.** After each of some operations that bring no escape along, an emitter
with colours differs from one without by the codes of styles alone. -/
theorem colors_only_decorate (ops : List Emitter.Operation)
    (clean : ∀ op ∈ ops, op.Unescaped) (n : Nat) :
    ∃ answers painted plain,
      stepAll Emitter.step { writer := ({} : Sink), colored := true } (ops.take n) =
        .ok (answers, painted) ∧
      stepAll Emitter.step { writer := ({} : Sink), colored := false } (ops.take n) =
        .ok (answers, plain) ∧
      Emitter.DecoratedOnly painted plain := by
  obtain ⟨painted, first, colorful, count⟩ := Emitter.stepAll_holds true (ops.take n)
  obtain ⟨plain, second, colorless, count'⟩ := Emitter.stepAll_holds false (ops.take n)
  have counts : Reporter.errorCount painted = Reporter.errorCount plain := count.trans count'.symm
  refine ⟨_, painted, plain, first, second, ?_, counts, congrArg Guarantee.ofCount? counts, ?_⟩
  · rw [colorful.held, colorless.held]
    exact Emitter.Operation.deleteAll_flatMap_written fun op inside =>
      clean op (List.mem_of_mem_take inside)
  · intro d
    rw [(colorless.report d).held, colorless.held, Emitter.lineBytes_false_eq]

/-- A report with texts that look like codes without their escape, a scan with two faults, and a
note. -/
theorem colors_only_decorate_mixed :
    (∀ op ∈ [Emitter.Operation.call
          (.report ⟨3, some 14, " at '[1m'", "a\n[0m", some .unexpectedCharacter, none⟩),
        .call (.lex "é\n\"b"), .noteSuppressed 2], op.Unescaped) ∧
      ∃ answers painted plain,
        stepAll Emitter.step { writer := ({} : Sink), colored := true }
            ([Emitter.Operation.call
                (.report ⟨3, some 14, " at '[1m'", "a\n[0m", some .unexpectedCharacter, none⟩),
              .call (.lex "é\n\"b"), .noteSuppressed 2].take 3) = .ok (answers, painted) ∧
        stepAll Emitter.step { writer := ({} : Sink), colored := false }
            ([Emitter.Operation.call
                (.report ⟨3, some 14, " at '[1m'", "a\n[0m", some .unexpectedCharacter, none⟩),
              .call (.lex "é\n\"b"), .noteSuppressed 2].take 3) = .ok (answers, plain) ∧
        Emitter.DecoratedOnly painted plain := by
  have clean : ∀ op ∈ [Emitter.Operation.call
        (.report ⟨3, some 14, " at '[1m'", "a\n[0m", some .unexpectedCharacter, none⟩),
      .call (.lex "é\n\"b"), .noteSuppressed 2], op.Unescaped := by
    intro op inside
    simp only [List.mem_cons, List.not_mem_nil, or_false] at inside
    rcases inside with rfl | rfl | rfl
    · exact ⟨by decide, by decide⟩
    · trivial
    · trivial
  exact ⟨clean, colors_only_decorate _ clean 3⟩

end LoxScan
