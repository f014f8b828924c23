import LoxScan.Proofs.FaultOrder
import LoxScan.Proofs.QueueHistory
import LoxScan.Proofs.Rendering
import LoxScan.Proofs.SweepSafety
import LoxScan.Text.ByteLines

/-!
# Reports of a scan

A scan can tell its faults to an emitter, which shows each at once, or to a queue, which is flushed
into an emitter later and may have a limit. Because the faults of a scan are told in order of
position, the queue hands over what it was given first and in the order in which it was given, and
so neither the detour nor the limit changes what is shown of a fault: the limit only decides how
many are shown, and leaves a line that counts the others.

* **`flush_holding_diagnostics`**: after a scan a queue hands over what it has kept in the order in
  which it was told.
* **`reporters_agree`**: so an emitter shows the same, be it told at once or of what a queue hands
  over.
* **`err_perform`**: the error stream of a run over a script is the lines of the kept faults and the
  count of the others.
* **`error_limit_shortens`**: so a limit takes lines off the end of a report, and changes nothing
  else.
-/

namespace LoxScan

open Utf8

-- ── What is told of a scan ──────────

/-- A queue that is told of a scan holds its diagnostics. -/
theorem Scan.reporter_told (s : Scan) (limit : Nat) :
    (s.told (Queue.withLimit limit)).reporter = Queue.holding limit s.diagnostics :=
  Queue.reportAll_withLimit ..

/-- As many faults are counted as there are diagnostics. -/
theorem Scan.faults_told {ρ : Type} [Reporter ρ] (s : Scan) (reporter : ρ) :
    (s.told reporter).faults = s.diagnostics.length :=
  (List.length_map _).symm

-- ── Two reporters ───────────────────

/-- The diagnostics of a scan are in order of position, so a queue hands over what it has kept as it
is. -/
theorem Scan.flush_holding_diagnostics {source : List Char}
    (short : byteLength source < Word.largest)
    (limit : Nat) :
    (Queue.holding limit (ofList source).diagnostics).flush.1 =
      Queue.within limit (ofList source).diagnostics := by
  have ordered : (ofList source).diagnostics.Pairwise (Diagnostic.positionLE · · = true) :=
    (pairwise_precedes short).imp Diagnostic.positionLE_of_precedes
  rw [Queue.flush_holding ordered]

/-- What is told of a text directly to an emitter and what is told of it to a queue without limit
agree: the tokens are the same, and so is the emitter, be it told at once or of what the queue hands
over. The queue hands over what it was told, in that order, which is the strict order of the
positions, and of which none but the last is an open string. Either reporter counts all of them. -/
structure Sweep.Agree {ω : Type} [Writer ω] (source : List Char) (fresh : Emitter ω)
    (direct : Told (Emitter ω)) (queued : Told Queue) : Prop where
  lex_direct : lex source fresh = .ok direct
  lex_queued : lex source (Queue.withLimit 0) = .ok queued
  tokens : direct.tokens = queued.tokens
  emitter : direct.reporter = Reporter.reportAll fresh queued.reporter.flush.1
  errorCount : direct.reporter.errorCount = queued.reporter.errorCount
  flush : queued.reporter.flush.1 = queued.reporter.toList
  ordered : queued.reporter.toList.Pairwise Diagnostic.Precedes
  last : ∀ d ∈ queued.reporter.toList.dropLast, d.code.map Code.text ≠ some "E0001"

/-- **Two reporters.** A text can be told to an emitter or to a queue that is flushed into it. -/
theorem reporters_agree {ω : Type} [Writer ω] (source : String)
    (short : source.utf8ByteSize < Word.largest) (mode : ColorMode) (terminal : Bool)
    (writer : ω) :
    ∃ direct queued,
      Sweep.Agree source.toList { writer, colored := mode.colors terminal } direct queued := by
  rw [← byteLength_toList] at short
  have held : ((Scan.ofList source.toList).told (Queue.withLimit 0)).reporter =
      Queue.holding 0 (Scan.ofList source.toList).diagnostics := Queue.reportAll_withLimit 0 _
  have kept : (Queue.holding 0 (Scan.ofList source.toList).diagnostics).toList =
      (Scan.ofList source.toList).diagnostics := rfl
  have flushed := Scan.flush_holding_diagnostics short 0
  refine ⟨_, _, Sweep.lex_eq _ _, Sweep.lex_eq _ _, rfl, ?_, ?_, ?_, ?_, ?_⟩
  · rw [held, flushed]
    rfl
  · rw [held, Queue.errorCount_holding]
    exact (Reporter.errorCount_reportAll
      ({ writer, colored := mode.colors terminal } : Emitter ω) _).trans (Nat.zero_add _)
  · rw [held, flushed]
    rfl
  · rw [held, kept]
    exact Scan.pairwise_precedes short
  · rw [held, kept]
    exact fun d hd => Scan.not_openString_of_mem_dropLast hd

/-- Stray characters on two lines and an open string over two more, in colour. -/
theorem reporters_agree_mixed :
    "é @\n# \"a\n\nb".utf8ByteSize < Word.largest ∧
      ∃ direct queued, Sweep.Agree "é @\n# \"a\n\nb".toList
        { writer := ({} : Sink), colored := ColorMode.always.colors false } direct queued :=
  ⟨by decide, reporters_agree _ (by decide) .always false _⟩

-- ── Scripts ─────────────────────────

namespace Script

variable (config : Config) (path : String) (bytes : List UInt8)

/-- What is done with a script that could be read. -/
theorem actions_plan : (plan config path (.ok bytes)).actions =
    .log (.scriptStarted path) ::
      ((scanText config (decodeLossy bytes) (Queue.withLimit config.errorLimit)).1 ++
        .flush :: showing config
          (Queue.holding config.errorLimit (Scan.ofList (decodeLossy bytes)).diagnostics)) := by
  rw [← Queue.reportAll_withLimit]
  rfl

/-- The outcome is evidence of faults, exactly if there are any. -/
theorem outcome_plan : (plan config path (.ok bytes)).outcome =
    .ok (if 0 < (Scan.ofList (decodeLossy bytes)).diagnostics.length then some .reported
      else none) := by
  show Except.ok (Guarantee.ofCount? (Reporter.reportAll (Queue.withLimit config.errorLimit)
    (Scan.ofList (decodeLossy bytes)).diagnostics).errorCount) = _
  rw [Queue.reportAll_withLimit, Queue.errorCount_holding]
  cases (Scan.ofList (decodeLossy bytes)).diagnostics.length with
  | zero => rfl
  | succ n => rfl

/-- The output holds what scanning the text prints, flushed once. -/
theorem out_perform : ((plan config path (.ok bytes)).perform {}).1.out =
    Sink.grown {} ((scanText config (decodeLossy bytes)
      (Queue.withLimit config.errorLimit)).1.flatMap Action.output) 1 := by
  obtain ⟨silent, unflushed⟩ := output_showing config
    (Queue.holding config.errorLimit (Scan.ofList (decodeLossy bytes)).diagnostics)
  have dumped := flush_not_mem_scanText config (decodeLossy bytes)
    (Queue.withLimit config.errorLimit)
  rw [Plan.perform_of_unfailing Console.unfailing_default, actions_plan]
  simp only [Console.after, List.flatMap_cons, List.flatMap_append, List.count_cons,
    List.count_append, silent, List.count_eq_zero.2 unflushed, List.count_eq_zero.2 dumped]
  simp

/-- Without a log on it, the error stream holds the lines of the faults that are kept and the count
of the others. -/
theorem err_perform : ((plan config path (.ok bytes)).perform {}).1.err.toList =
    (Queue.holding config.errorLimit (Scan.ofList (decodeLossy bytes)).diagnostics).flush.1.flatMap
        (Emitter.lineBytes (config.color.colors false)) ++
      Emitter.noteBytes (config.color.colors false)
        (Queue.holding config.errorLimit
          (Scan.ofList (decodeLossy bytes)).diagnostics).suppressed := by
  have dumped := warning_scanText config (decodeLossy bytes) (Queue.withLimit config.errorLimit)
  rw [Plan.perform_of_unfailing Console.unfailing_default, Console.toList_err_after, actions_plan,
    ← warning_showing, List.flatMap_cons, List.flatMap_append, List.flatMap_cons, dumped]
  show [] ++ (Action.warning (fun _ => none) (.log (.scriptStarted path)) ++ _) = _
  rw [Action.warning_log_none]
  rfl

end Script

-- ── Limits ──────────────────────────

namespace Script

/-- A run over the script with the given bytes, on streams that do not fail, with a limit in place
of the one that was chosen. -/
def limited (config : Config) (limit : Nat) (path : String) (bytes : List UInt8) :
    Console × Except Failure (Option Guarantee) :=
  (plan { config with errorLimit := limit } path (.ok bytes)).perform {}

/-- The lines that such a run writes to the error stream. -/
def errorLines (config : Config) (limit : Nat) (path : String) (bytes : List UInt8) :
    List (List UInt8) :=
  byteLines (limited config limit path bytes).1.err.toList

/-- The faults in the script with the given bytes. -/
def faultsOf (bytes : List UInt8) : List Diagnostic :=
  (Scan.ofList (decodeLossy bytes)).diagnostics

/-- What a limit does to a run over a script. The output and the evidence of faults are the same
whatever the limit is. Without a limit there is a line for every fault. With one that is reached
before the faults end, there are as many of these lines as it allows, which are those with the
smallest positions, and one that counts the others. -/
structure Shortened (config : Config) (limit : Nat) (path : String)
    (bytes : List UInt8) : Prop where
  output : (limited config limit path bytes).1.out = (limited config 0 path bytes).1.out
  result : (limited config limit path bytes).2 =
    .ok (if 0 < (faultsOf bytes).length then some .reported else none)
  allLines : errorLines config 0 path bytes =
    (faultsOf bytes).map (Emitter.lineBytes (config.color.colors false))
  lines : errorLines config limit path bytes =
    if limit = 0 ∨ (faultsOf bytes).length ≤ limit then errorLines config 0 path bytes
    else (errorLines config 0 path bytes).take limit ++
      [Emitter.noteLine (config.color.colors false) ((faultsOf bytes).length - limit)]
  smallest : ∀ kept ∈ (faultsOf bytes).take limit, ∀ dropped ∈ (faultsOf bytes).drop limit,
    kept.Precedes dropped

section Lines

variable (config : Config) (limit : Nat) (path : String) {bytes : List UInt8}

/-- The result of a run is evidence of faults, exactly if there are any. -/
theorem result_limited (bytes : List UInt8) : (limited config limit path bytes).2 =
    .ok (if 0 < (faultsOf bytes).length then some .reported else none) := by
  rw [limited, Plan.perform_of_unfailing Console.unfailing_default]
  exact outcome_plan { config with errorLimit := limit } path bytes

/-- The error stream of a run holds the lines of the faults that are kept and the count of the
others. -/
theorem err_limited (short : byteLength (decodeLossy bytes) < Word.largest) :
    (limited config limit path bytes).1.err.toList =
      (Queue.within limit (faultsOf bytes)).flatMap
        (Emitter.lineBytes (config.color.colors false)) ++
        Emitter.noteBytes (config.color.colors false)
          (Queue.holding limit (faultsOf bytes)).suppressed := by
  rw [faultsOf, ← Scan.flush_holding_diagnostics short]
  exact err_perform { config with errorLimit := limit } path bytes

/-- A limit that is not reached leaves nothing but the lines of the faults. -/
theorem err_limited_of_le (short : byteLength (decodeLossy bytes) < Word.largest)
    (fits : limit = 0 ∨ (faultsOf bytes).length ≤ limit) :
    (limited config limit path bytes).1.err.toList =
      (faultsOf bytes).flatMap (Emitter.lineBytes (config.color.colors false)) := by
  obtain ⟨kept, suppressed⟩ := Queue.holding_of_le fits
  have noNote : Emitter.noteBytes (config.color.colors false) 0 = [] := rfl
  rw [err_limited config limit path short, kept, suppressed, noNote, List.append_nil]

/-- **Lines of a run.** On the error stream each fault that is kept has one line, in order of
position, and one more counts the others, if there are any. -/
theorem errorLines_eq (bytes : List UInt8) :
    errorLines config limit path bytes =
      (Queue.holding limit (faultsOf bytes)).flush.1.map
        (Emitter.lineBytes (config.color.colors false)) ++
        Emitter.noteLines (config.color.colors false)
        (Queue.holding limit (faultsOf bytes)).suppressed := by
  have text : (limited config limit path bytes).1.err.toList =
      ((Queue.holding limit (faultsOf bytes)).flush.1.map
        (Emitter.lineBytes (config.color.colors false)) ++
        Emitter.noteLines (config.color.colors false)
          (Queue.holding limit (faultsOf bytes)).suppressed).flatten := by
    rw [List.flatten_append, Emitter.flatten_noteLines, ← List.flatMap_def]
    exact err_perform { config with errorLimit := limit } path bytes
  rw [errorLines, text]
  refine byteLines_of_ended ?_
  intro line inside
  rcases List.mem_append.1 inside with inside | inside
  · obtain ⟨d, hd, rfl⟩ := List.mem_map.1 inside
    rw [Queue.mem_flush, Queue.toList_holding] at hd
    obtain ⟨f, -, rfl⟩ := List.mem_map.1 ((Queue.isPrefix_within limit _).subset hd)
    exact Emitter.exists_lineBytes _ f
  · rw [Emitter.noteLines] at inside
    split at inside
    case isTrue => exact absurd inside List.not_mem_nil
    case isFalse =>
      obtain rfl := List.mem_singleton.1 inside
      exact Emitter.exists_noteLine ..

/-- A limit that is not reached leaves the line of every fault. -/
theorem errorLines_of_le (short : byteLength (decodeLossy bytes) < Word.largest)
    (fits : limit = 0 ∨ (faultsOf bytes).length ≤ limit) :
    errorLines config limit path bytes =
      (faultsOf bytes).map (Emitter.lineBytes (config.color.colors false)) := by
  obtain ⟨kept, suppressed⟩ := Queue.holding_of_le fits
  rw [errorLines_eq, faultsOf, Scan.flush_holding_diagnostics short, ← faultsOf, kept, suppressed]
  exact List.append_nil _

/-- A limit that is reached leaves as many lines and one that counts the others. -/
theorem errorLines_of_lt (short : byteLength (decodeLossy bytes) < Word.largest)
    (beyond : ¬ (limit = 0 ∨ (faultsOf bytes).length ≤ limit)) :
    errorLines config limit path bytes =
      ((faultsOf bytes).map (Emitter.lineBytes (config.color.colors false))).take limit ++
        [Emitter.noteLine (config.color.colors false) ((faultsOf bytes).length - limit)] := by
  obtain ⟨kept, suppressed⟩ := Queue.holding_of_lt beyond
  have more : (faultsOf bytes).length - limit ≠ 0 := by omega
  rw [errorLines_eq, faultsOf, Scan.flush_holding_diagnostics short, ← faultsOf, kept, suppressed,
    List.map_take, Emitter.noteLines, if_neg more]

end Lines

end Script

/-- **Limits.** A limit on the faults that are shown does nothing to a run but shorten its
report. -/
theorem error_limit_shortens (config : Config) (limit : Nat) (path : String) (bytes : List UInt8)
    (short : byteLength (decodeLossy bytes) < Word.largest) :
    Script.Shortened config limit path bytes := by
  have all := Script.errorLines_of_le config 0 path short (Or.inl rfl)
  refine ⟨?_, Script.result_limited config limit path bytes, all, ?_, ?_⟩
  · exact (Script.out_perform { config with errorLimit := limit } path bytes).trans
      (Script.out_perform { config with errorLimit := 0 } path bytes).symm
  · rw [all]
    split
    case isTrue fits => exact Script.errorLines_of_le config limit path short fits
    case isFalse beyond => exact Script.errorLines_of_lt config limit path short beyond
  · have ordered := Scan.pairwise_precedes short
    rw [← List.take_append_drop limit (Scan.ofList (decodeLossy bytes)).diagnostics] at ordered
    exact (List.pairwise_append.1 ordered).2.2

/-- Three faults, one of them a malformed piece, under a limit of one. -/
theorem error_limit_shortens_mixed :
    byteLength (decodeLossy [64, 10, 255, 32, 34, 97]) < Word.largest ∧
      Script.Shortened { color := .always } 1 "a.lox" [64, 10, 255, 32, 34, 97] := by
  have short : byteLength (decodeLossy [64, 10, 255, 32, 34, 97]) < Word.largest := by
    decide +kernel
  exact ⟨short, error_limit_shortens _ 1 "a.lox" _ short⟩

end LoxScan
