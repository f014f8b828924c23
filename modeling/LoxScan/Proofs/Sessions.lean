import LoxScan.Proofs.QueueHistory
import LoxScan.Proofs.Rendering
import LoxScan.Run.Prompt
import LoxScan.Text.ByteLines
import Mathlib.Data.List.TakeWhile

/-!
# Sessions line by line

A session at the prompt reads a line, answers it and goes on with the rest of the input and the
queue that the line has left. Said without the way, it is a row of scans that know nothing of each
other. The input is cut after each line feed, all at once; the lines are answered in order up to the
first that is no text or has nothing but line ends; and every answer is that of a fresh queue, for
the queue that a line leaves is empty again (`planFrom_eq`).

* **`byteLines_eq_cons`**: the line that is read next is the first of the lines of the input.
* **`planLines_eq`**: what a session does is to ask and answer once for each line and to ask once
  more.
* **`session_of_lines`**: so what it prints and shows is what the lines print and show, each by
  itself.
-/

namespace LoxScan.Prompt

open Utf8

-- ── The lines of an input ───────────

/-- The line that is read next ends with the first line feed, or with the input if there is none. -/
theorem nextLine_cases (input : List UInt8) :
    ∃ body, 10 ∉ body ∧
      ((nextLine input = (body, []) ∧ input = body) ∨
        ∃ rest, nextLine input = (body ++ [10], rest) ∧ input = body ++ [10] ++ rest) := by
  have whole := List.takeWhile_append_dropWhile (p := (· ≠ 10)) (l := input)
  have head := List.head?_dropWhile_not (· ≠ 10) input
  refine ⟨input.takeWhile (· ≠ 10), ?_, ?_⟩
  · intro inside
    exact absurd (List.mem_takeWhile_imp inside) (by decide)
  · rw [nextLine]
    cases tail : input.dropWhile (· ≠ 10) with
    | nil =>
        rw [tail, List.append_nil] at whole
        exact Or.inl ⟨by simp, whole.symm⟩
    | cons b rest =>
        rw [tail] at head whole
        obtain rfl : b = 10 := by simpa using head
        exact Or.inr ⟨rest, rfl, by rw [List.append_assoc]; exact whole.symm⟩

/-- The line that is read next is the first of the lines. -/
theorem byteLines_eq_cons {input : List UInt8} (nonempty : input ≠ []) :
    byteLines input = (nextLine input).1 :: byteLines (nextLine input).2 := by
  obtain ⟨body, flat, ⟨read, rfl⟩ | ⟨rest, read, rfl⟩⟩ := nextLine_cases input
  · rw [read]
    exact byteLines_of_not_mem_dropLast nonempty fun inside =>
      flat ((List.dropLast_prefix _).subset inside)
  · rw [read]
    exact byteLines_line_append flat rest

-- ── Answers that know nothing of each other ──

/-- What a session does with the text of a line, if the queue is fresh. -/
def answer (config : Config) (text : List Char) : List Action :=
  (answering config text (Queue.withLimit config.errorLimit)).1

/-- A session over lines, with a fresh queue for each. -/
def planLines (config : Config) : List (List UInt8) → Plan Unit
  | [] => ⟨asking ++ [.log .promptClosed], .ok ()⟩
  | line :: rest =>
    match Turn.ofLine line with
    | .closes => ⟨asking ++ [.log .promptClosed], .ok ()⟩
    | .fails => ⟨asking, .error (.stream .invalidUtf8)⟩
    | .scans text =>
      ⟨asking ++ answer config text ++ (planLines config rest).actions,
        (planLines config rest).outcome⟩

/-- The queue that a line leaves is fresh again. -/
theorem answering_reset (config : Config) (text : List Char) (limit : Nat) :
    (answering config text (Queue.withLimit limit)).2 = Queue.withLimit limit := by
  show (Reporter.reportAll (Queue.withLimit limit) (Scan.ofList text).diagnostics).reset = _
  rw [Queue.reportAll_withLimit, Queue.reset_holding]

theorem ne_nil_of_turn {input : List UInt8} (h : Turn.ofLine (nextLine input).1 ≠ .closes) :
    input ≠ [] := by
  rintro rfl
  exact h Turn.ofLine_nil

/-- **Lines by themselves.** A session over an input is one over its lines, with a fresh queue for
each. -/
theorem plan_eq_planLines (config : Config) (input : List UInt8) :
    plan config input = planLines config (byteLines input) := by
  rw [plan]
  generalize fresh : Queue.withLimit config.errorLimit = q
  fun_induction planFrom config q input with
  | case1 q input closes =>
      by_cases empty : input = []
      · subst empty
        rfl
      · simp only [byteLines_eq_cons empty, planLines, closes]
  | case2 q input fails =>
      have nonempty : input ≠ [] := ne_nil_of_turn (by rw [fails]; exact Turn.noConfusion)
      simp only [byteLines_eq_cons nonempty, planLines, fails]
  | case3 q input text scans answered later ih =>
      subst fresh
      have nonempty : input ≠ [] := ne_nil_of_turn (by rw [scans]; exact Turn.noConfusion)
      have rest : later = planLines config (byteLines (nextLine input).2) :=
        ih (answering_reset config text config.errorLimit).symm
      simp only [byteLines_eq_cons nonempty, planLines, scans, rest]
      rfl

-- ── Where a session stops ───────────

/-- The text of a line without the line ends at its back, if the line is text. -/
def lineText? (line : List UInt8) : Option (List Char) :=
  (decode? line).map trimLineEnds

/-- A session goes on after a line that is text and has more than line ends. -/
def goesOn (line : List UInt8) : Bool :=
  match lineText? line with
  | some (_ :: _) => true
  | _ => false

/-- The texts that are scanned: those of the lines before the first after which the session does not
go on. -/
def textsOf (lines : List (List UInt8)) : List (List Char) :=
  (lines.takeWhile goesOn).filterMap lineText?

/-- How a session ends. The first line after which it does not go on fails it if it is no text, and
otherwise closes it, as the end of the input does. -/
def endingOf (lines : List (List UInt8)) : Except Failure Unit :=
  match lines.find? (!goesOn ·) with
  | none => .ok ()
  | some line =>
    match decode? line with
    | none => .error (.stream .invalidUtf8)
    | some _ => .ok ()

/-- What is logged when a session is over. One that fails logs nothing more. -/
def closing (ending : Except Failure Unit) : List Action :=
  match ending with
  | .ok () => [.log .promptClosed]
  | .error _ => []

section Cons

variable {line : List UInt8} (rest : List (List UInt8))

theorem textsOf_cons_of_stops (h : goesOn line = false) : textsOf (line :: rest) = [] := by
  rw [textsOf, List.takeWhile_cons_of_neg (by rw [h]; exact Bool.false_ne_true)]
  rfl

theorem endingOf_cons_of_stops (h : goesOn line = false) :
    endingOf (line :: rest) =
      match decode? line with
      | none => .error (.stream .invalidUtf8)
      | some _ => .ok () := by
  rw [endingOf, List.find?_cons_of_pos (by rw [h]; rfl)]

theorem textsOf_cons_of_goesOn {text : List Char} (h : goesOn line = true)
    (read : lineText? line = some text) : textsOf (line :: rest) = text :: textsOf rest := by
  rw [textsOf, List.takeWhile_cons_of_pos h, List.filterMap_cons_some read]
  rfl

theorem endingOf_cons_of_goesOn (h : goesOn line = true) :
    endingOf (line :: rest) = endingOf rest := by
  rw [endingOf, List.find?_cons_of_neg (by rw [h]; exact Bool.false_ne_true)]
  rfl

end Cons

/-- **Asking and answering.** A session asks and answers once for each line, and asks once more. -/
theorem planLines_eq (config : Config) (lines : List (List UInt8)) :
    planLines config lines =
      ⟨(textsOf lines).flatMap (fun text => asking ++ answer config text) ++ asking ++
        closing (endingOf lines), endingOf lines⟩ := by
  induction lines with
  | nil => rfl
  | cons line rest ih =>
      cases decoded : decode? line with
      | none =>
          have stops : goesOn line = false := by
            rw [goesOn, lineText?, decoded]
            rfl
          have turn : Turn.ofLine line = .fails := by rw [Turn.ofLine, decoded]
          rw [textsOf_cons_of_stops rest stops, endingOf_cons_of_stops rest stops, decoded]
          simp only [planLines, turn]
          rfl
      | some text =>
          cases trimmed : trimLineEnds text with
          | nil =>
              have stops : goesOn line = false := by
                rw [goesOn, lineText?, decoded, Option.map_some, trimmed]
              have turn : Turn.ofLine line = .closes := by simp only [Turn.ofLine, decoded, trimmed]
              rw [textsOf_cons_of_stops rest stops, endingOf_cons_of_stops rest stops, decoded]
              simp only [planLines, turn]
              rfl
          | cons c more =>
              have read : lineText? line = some (c :: more) := by
                rw [lineText?, decoded, Option.map_some, trimmed]
              have goes : goesOn line = true := by rw [goesOn, read]
              have turn : Turn.ofLine line = .scans (c :: more) := by
                simp only [Turn.ofLine, decoded, trimmed]
              rw [textsOf_cons_of_goesOn rest goes read, endingOf_cons_of_goesOn rest goes]
              simp only [planLines, turn, ih, List.flatMap_cons, List.append_assoc]

/-- What follows a line that stops a session has no effect on it. -/
theorem planLines_append_of_stops {stop : List UInt8} (config : Config) (h : goesOn stop = false)
    (before after later : List (List UInt8)) :
    planLines config (before ++ stop :: after) = planLines config (before ++ stop :: later) := by
  induction before with
  | nil =>
      rw [List.nil_append, List.nil_append, planLines_eq, planLines_eq,
        textsOf_cons_of_stops after h, textsOf_cons_of_stops later h,
        endingOf_cons_of_stops after h, endingOf_cons_of_stops later h]
  | cons line before ih =>
      rw [List.cons_append, List.cons_append, planLines, planLines, ih]

-- ── What is printed and shown ───────

/-- What scanning a text prints by itself. -/
def dumped (config : Config) (text : List Char) : List UInt8 :=
  (Console.performAll {} (Script.scanText config text
    (Queue.withLimit config.errorLimit)).1).1.out.toList

/-- What is shown, by itself, of the queue that scanning a text leaves, if it was fresh before. -/
def rendered (config : Config) (text : List Char) : List UInt8 :=
  (Console.performAll {} (Script.showing config
    (Script.scanText config text (Queue.withLimit config.errorLimit)).2)).1.err.toList

theorem output_answer (config : Config) (text : List Char) :
    (answer config text).flatMap Action.output = dumped config text := by
  rw [dumped, Console.performAll_of_unfailing Console.unfailing_default, Console.toList_out_after]
  show ((Script.scanText config text _).1 ++ .flush :: Script.showing config _).flatMap _ = _
  rw [List.flatMap_append, List.flatMap_cons, (Script.output_showing config _).1]
  exact List.append_nil _

theorem warning_answer (config : Config) (text : List Char) :
    (answer config text).flatMap (Action.warning fun _ => none) = rendered config text := by
  rw [rendered, Console.performAll_of_unfailing Console.unfailing_default, Console.toList_err_after]
  show ((Script.scanText config text _).1 ++ .flush :: Script.showing config _).flatMap _ = _
  rw [List.flatMap_append, Script.warning_scanText]
  rfl

theorem count_flush_answer (config : Config) (text : List Char) :
    (answer config text).count .flush = 1 := by
  show ((Script.scanText config text _).1 ++ .flush :: Script.showing config _).count _ = _
  rw [List.count_append, List.count_cons_self,
    List.count_eq_zero.2 (Script.flush_not_mem_scanText config text _),
    List.count_eq_zero.2 (Script.output_showing config _).2]

/-- Asking is one prompt and one flush. -/
theorem asking_adds : asking.flatMap Action.output = encode "> ".toList ∧
    asking.flatMap (Action.warning fun _ => none) = [] ∧ asking.count .flush = 1 :=
  ⟨rfl, rfl, rfl⟩

theorem closing_adds (ending : Except Failure Unit) :
    (closing ending).flatMap Action.output = [] ∧
    (closing ending).flatMap (Action.warning fun _ => none) = [] ∧
      (closing ending).count .flush = 0 := by
  cases ending with
  | ok u => exact ⟨rfl, rfl, rfl⟩
  | error f => exact ⟨rfl, rfl, rfl⟩

/-- The flushes of a session: one after asking and one after the dump of every line. -/
theorem count_flush_answers (config : Config) (texts : List (List Char)) :
    (texts.flatMap fun text => asking ++ answer config text).count .flush = 2 * texts.length := by
  induction texts with
  | nil => rfl
  | cons text texts ih =>
      rw [List.flatMap_cons, List.count_append, List.count_append, ih, count_flush_answer,
        asking_adds.2.2, List.length_cons]
      omega

/-- What a session over an input comes to on streams that do not fail, told by the lines of the
input. The prompt and what scanning it prints by itself, for each text that is scanned, and the
prompt once more; what is shown of a fresh queue after each text alone; two flushes for each and one
more; and the result that the line at which the session stops decides. What follows this line, if it
is ended, has no effect at all. -/
structure LineByLine (config : Config) (input : List UInt8) (console : Console)
    (outcome : Except Failure Unit) : Prop where
  printed : console.out.toList =
    (textsOf (byteLines input)).flatMap (fun text => encode "> ".toList ++ dumped config text) ++
      encode "> ".toList
  shown : console.err.toList = (textsOf (byteLines input)).flatMap (rendered config)
  flushes : console.out.flushes = 2 * (textsOf (byteLines input)).length + 1
  result : outcome = endingOf (byteLines input)
  stopped : ∀ before stop after, byteLines input = before ++ stop :: after →
    goesOn stop = false → stop.getLast? = some 10 →
    ∀ later, plan config (before.flatten ++ stop ++ later) = plan config input

/-- **Sessions.** On streams that do not fail a session goes line by line, and no line knows of
another. -/
theorem session_of_lines (config : Config) (input : List UInt8) :
    LineByLine config input ((plan config input).perform {}).1
      ((plan config input).perform {}).2 := by
  obtain ⟨askingPrints, askingShows, askingFlushes⟩ := asking_adds
  obtain ⟨closingPrints, closingShows, closingFlushes⟩ :=
    closing_adds (endingOf (byteLines input))
  have planned : plan config input =
      ⟨(textsOf (byteLines input)).flatMap (fun text => asking ++ answer config text) ++ asking ++
        closing (endingOf (byteLines input)), endingOf (byteLines input)⟩ := by
    rw [plan_eq_planLines, planLines_eq]
  have result : (plan config input).perform {} =
      (Console.after {} (plan config input).actions, endingOf (byteLines input)) := by
    rw [Plan.perform_of_unfailing Console.unfailing_default, planned]
  refine ⟨?_, ?_, ?_, congrArg Prod.snd result, ?_⟩
  · rw [result, Console.toList_out_after, planned]
    simp only [List.flatMap_append, List.flatMap_assoc, output_answer, askingPrints, closingPrints,
      List.append_nil]
    rfl
  · rw [result, Console.toList_err_after, planned]
    simp only [List.flatMap_append, List.flatMap_assoc, askingShows, closingShows, List.append_nil,
      List.nil_append, warning_answer]
    rfl
  · rw [result, planned]
    show 0 + (_ ++ asking ++ closing (endingOf (byteLines input))).count .flush = _
    rw [List.count_append, List.count_append, count_flush_answers, askingFlushes, closingFlushes]
    omega
  · intro before stop after cut stops ended later
    have head : byteLines (before.flatten ++ stop) = before ++ [stop] := by
      have first : byteLines input = before ++ [stop] ++ after := by
        rw [List.append_assoc]
        exact cut
      have pieces := byteLines_flatten_left first
      rwa [List.flatten_append, List.flatten_singleton] at pieces
    have last : (before.flatten ++ stop).getLast? = some 10 := by
      rw [List.getLast?_append, ended]
      rfl
    rw [plan_eq_planLines, plan_eq_planLines, byteLines_append_of_newline last, head,
      List.append_assoc, show byteLines input = _ from cut]
    exact planLines_append_of_stops config stops before (byteLines later) after

end LoxScan.Prompt
