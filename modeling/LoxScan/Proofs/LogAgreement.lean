import LoxScan.Proofs.ErrorStream
import LoxScan.Proofs.Reports

/-!
# What the log tells

The log says again what a run gives back and shows, and is kept apart from both: a sweep logs what
it finds as it goes, and counts the faults itself; a queue counts what it keeps and what it does
not; and an emitter counts what it is given. All of these are told of the same findings, and so they
agree, whatever the limit is.

What a run logs does not depend on its error stream. It does depend on its output, for if that fails
nothing is shown any more; but a text is swept before the first of its tokens is printed, so all of
its events are there even then.

* **`pairwise_start_findings`**: tokens and faults are found in the order in which their texts
  begin.
* **`events_performAll_of_staged`**: events that come first are logged, whatever fails after them.
* **`events_perform_plan`**: so the log of a script is that of its sweep, and the counts of what was
  shown.
* **`log_agrees`**: the log agrees with the tokens, the reports, and the lines on the error stream.
-/

namespace LoxScan

open Utf8

-- ── What events tell ────────────────

namespace Event

/-- What the event of a token tells: its kind, its lexeme and its line. -/
def token? : Event → Option (Kind × String × Word)
  | token kind lexeme line => some (kind, lexeme, line)
  | _ => none

/-- What the event of a fault tells. -/
def faultText? : Event → Option String
  | fault f => some f.text
  | _ => none

end Event

/-- The text of a diagnostic in the log: its position and its message. -/
def Diagnostic.logText (d : Diagnostic) : String :=
  d.positionText ++ " " ++ d.message

theorem Fault.logText_toDiagnostic (f : Fault) : f.toDiagnostic.logText = f.text := by
  have space : "] " = "]" ++ " " := by decide
  show "[line " ++ Nat.repr f.line.toNat ++ ":" ++ Nat.repr f.column.toNat ++ "]" ++ " " ++
    f.cause.message =
    "[line " ++ Nat.repr f.line.toNat ++ ":" ++ Nat.repr f.column.toNat ++ "] " ++ f.cause.message
  rw [space, ← String.append_assoc]

section Findings

variable (found : List Finding)

/-- The events of some findings tell what there is to tell of the tokens among them. -/
theorem filterMap_token?_event : (found.map Finding.event).filterMap Event.token? =
    (found.filterMap Finding.token?).map fun t => (t.kind, t.lexeme, t.line) := by
  rw [List.filterMap_map, List.map_filterMap]
  refine List.filterMap_congr ?_
  intro f _
  cases f <;> rfl

/-- The events of some findings tell what there is to tell of the faults among them. -/
theorem filterMap_faultText?_event : (found.map Finding.event).filterMap Event.faultText? =
    ((found.filterMap Finding.fault?).map Fault.toDiagnostic).map Diagnostic.logText := by
  rw [List.filterMap_map, List.map_map, List.map_filterMap]
  refine List.filterMap_congr ?_
  intro f _
  cases f with
  | token t => rfl
  | fault f => exact congrArg some f.logText_toDiagnostic.symm

end Findings

-- ── The order of findings ───────────

theorem Placed.pairwise_start_lay {es : List Element} (tiled : Element.Tiled es) (p : Position) :
    (lay p es).Pairwise fun q r => q.start.offset < r.start.offset := by
  induction tiled generalizing p with
  | nil => exact List.Pairwise.nil
  | @cons e es good ends tiled ih =>
      refine List.pairwise_cons.2 ⟨?_, ih _⟩
      intro r hr
      obtain ⟨before, -, -, start⟩ := exists_of_mem_lay hr
      obtain ⟨c, text, begins⟩ := List.exists_cons_of_ne_nil good.text_ne_nil
      have positive := Char.utf8Size_pos c
      rw [start, Position.offset_advance, Position.offset_advance, begins, byteLength_cons]
      show p.offset < _
      omega

/-- **Order of findings.** What is found later begins later, as long as there are words for where it
begins. -/
theorem Scan.pairwise_start_findings (source : List Char) :
    (ofList source).findings.Pairwise fun a b =>
      a.span.start.toNat < b.span.start.toNat ∨ b.span.start.toNat = Word.largest := by
  refine List.pairwise_filterMap.2 ?_
  refine (Placed.pairwise_start_lay (Element.tiled_tile source) .origin).imp ?_
  intro q r earlier a ha b hb
  rw [Finding.span_of_ofPlaced? ha, Finding.span_of_ofPlaced? hb]
  show (Word.saturate q.start.offset).toNat < (Word.saturate r.start.offset).toNat ∨
    (Word.saturate r.start.offset).toNat = Word.largest
  rw [Word.toNat_saturate, Word.toNat_saturate]
  omega

/-- No token that is found marks the end of the input. -/
theorem Finding.not_isEof_of_token {q : Placed} {t : Token} (h : ofPlaced? q = some (.token t)) :
    t.isEof = false := by
  have other {kind : Kind} (ne : kind ≠ .eof) : (kind == .eof) = false := beq_eq_false_iff_ne.2 ne
  obtain ⟨e, start⟩ := q
  cases e with
  | punctuator p =>
      obtain rfl := Finding.token.inj (Option.some.inj h)
      exact other Kind.noConfusion
  | string body =>
      obtain rfl := Finding.token.inj (Option.some.inj h)
      exact other Kind.noConfusion
  | number whole fraction =>
      obtain rfl := Finding.token.inj (Option.some.inj h)
      exact other Kind.noConfusion
  | word letters =>
      obtain rfl := Finding.token.inj (Option.some.inj h)
      refine other ?_
      show Kind.ofWord (String.ofList letters) ≠ .eof
      rcases Kind.ofWord_cases (String.ofList letters) with ⟨k, word⟩ | word
      · rw [word]
        exact Kind.noConfusion
      · rw [word]
        exact Kind.noConfusion
  | comment body => cases h
  | blank c => cases h
  | openString body => cases h
  | stray c => cases h

-- ── The log of a sweep ──────────────

/-- What a sweep over a text, whose faults are told to a queue with a limit, logs, beside what it
gives back and reports. The text has some tokens and an end token, which alone marks the end of the
input. The reports are those that a queue without a limit keeps. Between the marks of the sweep
there is an event for each finding, in the order in which these begin, and then one for the end,
with the number of all tokens, the number of all reports, whether the queue has kept them or not,
and the line of the end token. -/
structure Sweep.Logged (source : List Char) (limit : Nat) (told : Told Queue) (body : List Token)
    (last : Token)
    (reports : List Diagnostic) (found : List Finding) : Prop where
  swept : lex source (Queue.withLimit limit) = .ok told
  tokens : told.tokens.toList = body ++ [last]
  ends : last.isEof = true ∧ ∀ t ∈ body, t.isEof = false
  reported : told.reporter = Reporter.reportAll (Queue.withLimit limit) reports
  unlimited : ∃ all, lex source (Queue.withLimit 0) = .ok all ∧ all.reporter.toList = reports
  counted : told.faults = reports.length ∧ told.reporter.errorCount = reports.length
  events : told.events.toList =
    [.scanOpened (byteLength source), .scanEntered] ++ found.map Finding.event ++
      [.scanComplete told.tokens.size told.faults last.line, .scanLeft]
  foundTokens : found.filterMap Finding.token? = body
  foundFaults : (found.filterMap Finding.fault?).map Fault.toDiagnostic = reports
  tokenEvents : told.events.toList.filterMap Event.token? =
    body.map fun t => (t.kind, t.lexeme, t.line)
  faultEvents : told.events.toList.filterMap Event.faultText? = reports.map Diagnostic.logText
  interleaved : found.Pairwise fun a b =>
    a.span.start.toNat < b.span.start.toNat ∨ b.span.start.toNat = Word.largest

/-- **Sweeps.** What a sweep logs agrees with what it gives back and reports. -/
theorem Sweep.exists_logged (source : List Char) (limit : Nat) :
    ∃ told body last reports found, Logged source limit told body last reports found := by
  have offset : (Scan.ofList source).finish.offset = byteLength source :=
    Position.offset_origin_advance source
  have events : ((Scan.ofList source).told (Queue.withLimit limit)).events.toList =
      [.scanOpened (byteLength source), .scanEntered] ++
        (Scan.ofList source).findings.map Finding.event ++
        [.scanComplete (Scan.ofList source).tokens.length (Scan.ofList source).faults.length
          (Scan.ofList source).eof.line, .scanLeft] := by
    show .scanOpened (Scan.ofList source).finish.offset :: .scanEntered ::
      (Scan.ofList source).innerEvents ++ [.scanLeft] = _
    rw [offset, Scan.innerEvents]
    simp [Scan.eof, Token.eof]
  refine ⟨(Scan.ofList source).told (Queue.withLimit limit),
    (Scan.ofList source).findings.filterMap Finding.token?,
    (Scan.ofList source).eof, (Scan.ofList source).diagnostics, (Scan.ofList source).findings,
    Sweep.lex_eq source _, rfl, ⟨rfl, ?_⟩, rfl, ⟨_, Sweep.lex_eq source _, ?_⟩,
      ⟨Scan.faults_told _ _, ?_⟩,
    events, rfl, rfl, ?_, ?_, Scan.pairwise_start_findings source⟩
  · intro t ht
    obtain ⟨f, hf, token⟩ := List.mem_filterMap.1 ht
    obtain ⟨q, -, found⟩ := List.mem_filterMap.1 hf
    cases f with
    | token u =>
        obtain rfl := Option.some.inj token
        exact Finding.not_isEof_of_token found
    | fault f => cases token
  · rw [Scan.reporter_told, Queue.toList_holding, Queue.within_zero]
  · rw [Scan.reporter_told, Queue.errorCount_holding]
  · rw [events, List.filterMap_append, List.filterMap_append, filterMap_token?_event]
    exact List.append_nil _
  · rw [events, List.filterMap_append, List.filterMap_append, filterMap_faultText?_event]
    exact List.append_nil _

-- ── The log of a console ────────────

/-- What an action logs. -/
def Action.event? : Action → Option Event
  | log event => some event
  | _ => none

namespace Console

variable {c : Console}

theorem events_record (c : Console) (event : Event) :
    (c.record event).events.toList = c.events.toList ++ [event] := by
  rw [record]
  split
  case h_1 => exact Array.toList_push
  case h_2 => exact Array.toList_push

/-- An action logs what it has to log, and nothing else. -/
theorem events_perform (c : Console) (action : Action) :
    (c.perform action).1.events.toList = c.events.toList ++ action.event?.toList := by
  cases action with
  | log event => exact c.events_record event
  | print text => exact (List.append_nil _).symm
  | flush => exact (List.append_nil _).symm
  | warn text => exact (List.append_nil _).symm
  | flushWarnings => exact (List.append_nil _).symm

/-- Actions that all succeed log what they have to log. -/
theorem events_performAll {actions : List Action} (succeed : (c.performAll actions).2 = none) :
    (c.performAll actions).1.events.toList = c.events.toList ++
      actions.filterMap Action.event? := by
  induction actions generalizing c with
  | nil => exact (List.append_nil _).symm
  | cons action actions ih =>
      have first := c.events_perform action
      rw [performAll] at succeed ⊢
      split
      case h_1 next performed =>
        rw [performed] at succeed first
        rw [ih succeed, first, List.append_assoc]
        cases action with
        | log event => rfl
        | _ => rfl
      case h_2 next failure performed =>
        rw [performed] at succeed
        cases succeed

/-- Actions that log nothing leave the log alone, even if one of them fails. -/
theorem events_performAll_of_unlogged {actions : List Action}
    (unlogged : ∀ a ∈ actions, a.event? = none) :
    (c.performAll actions).1.events.toList = c.events.toList := by
  induction actions generalizing c with
  | nil => rfl
  | cons action actions ih =>
      have first := c.events_perform action
      rw [unlogged action List.mem_cons_self, Option.toList_none, List.append_nil] at first
      rw [performAll]
      split
      case h_1 next performed =>
        rw [performed] at first
        exact (ih fun a ha => unlogged a (List.mem_cons_of_mem action ha)).trans first
      case h_2 next failure performed =>
        rw [performed] at first
        exact first

/-- **Stages.** What is logged first is logged, whether or not an action after it fails. -/
theorem events_performAll_of_staged (events : List Event) {actions : List Action}
    (unlogged : ∀ a ∈ actions, a.event? = none) :
    (c.performAll (events.map Action.log ++ actions)).1.events.toList =
      c.events.toList ++ events := by
  induction events generalizing c with
  | nil =>
      rw [List.append_nil]
      exact events_performAll_of_unlogged unlogged
  | cons event events ih =>
      show ((c.record event).performAll (events.map Action.log ++ actions)).1.events.toList = _
      rw [ih, events_record, List.append_assoc]
      rfl

end Console

-- ── The log of a script ─────────────

namespace Script

/-- What is logged of the faults that a run has shown: how many they are, and how many more there
were. It is logged only if the run gives evidence of faults. -/
def shownEvents (q : Queue) : Except Failure (Option Guarantee) → List Event
  | .ok (some _) => [.faultsShown q.flush.1.length q.suppressed]
  | _ => []

/-- Showing a queue logs how much was shown, if there was anything. -/
theorem filterMap_event?_showing (config : Config) (q : Queue) :
    (showing config q).filterMap Action.event? = shownEvents q (.ok (Reporter.guarantee? q)) := by
  have evidence : Reporter.guarantee? q = Guarantee.ofCount? q.errorCount := rfl
  rw [showing_eq, evidence]
  cases count : q.errorCount with
  | zero => rfl
  | succ n =>
      have silent :
          ∀ texts : List String, (texts.map Action.warn).filterMap Action.event? = [] := by
        intro texts
        rw [List.filterMap_map]
        exact List.filterMap_eq_nil_iff.2 fun _ _ => rfl
      have lines : (q.flush.1.flatMap fun d =>
          (Emitter.pieces (config.color.colors false) d).map Action.warn).filterMap
            Action.event? = [] := by
        rw [← List.map_flatMap]
        exact silent _
      rw [if_neg (Nat.succ_ne_zero n), List.filterMap_append, List.filterMap_append, lines, silent]
      rfl

variable (config : Config) (path : String) (bytes : List UInt8)

/-- All events of a sweep come before the first token is printed, and nothing else is logged before
showing. -/
theorem plan_eq_staged : plan config path (.ok bytes) =
    ⟨(.scriptStarted path :: (Scan.ofList (decodeLossy bytes)).events).map Action.log ++
        (printing config (Scan.ofList (decodeLossy bytes)) ++ [.flush]) ++
        showing config (Queue.holding config.errorLimit (faultsOf bytes)),
      .ok (Reporter.guarantee? (Queue.holding config.errorLimit (faultsOf bytes)))⟩ := by
  have told : Reporter.reportAll (Queue.withLimit config.errorLimit)
      (Scan.ofList (decodeLossy bytes)).diagnostics =
        Queue.holding config.errorLimit (faultsOf bytes) :=
    Queue.reportAll_withLimit ..
  rw [← told]
  simp [plan, planText, scanText, logging]

/-- Printing tokens logs nothing. -/
theorem event?_of_mem_printing (s : Scan) :
    ∀ a ∈ printing config s ++ [.flush], a.event? = none := by
  intro a ha
  rcases List.mem_append.1 ha with ha | ha
  · obtain ⟨t, -, rfl⟩ := List.mem_map.1 ha
    rfl
  · obtain rfl := List.mem_singleton.1 ha
    rfl

/-- **Runs.** The log of a run over a script is that of the sweep, and then the counts of what was
shown, if it comes to that. -/
theorem events_perform_plan (c : Console) :
    ((plan config path (.ok bytes)).perform c).1.events.toList =
      c.events.toList ++ .scriptStarted path :: (Scan.ofList (decodeLossy bytes)).events ++
        shownEvents (Queue.holding config.errorLimit (faultsOf bytes))
          ((plan config path (.ok bytes)).perform c).2 := by
  have staged := Console.events_performAll_of_staged (c := c)
    (.scriptStarted path :: (Scan.ofList (decodeLossy bytes)).events)
    (event?_of_mem_printing config (Scan.ofList (decodeLossy bytes)))
  rw [plan_eq_staged, Plan.perform_append]
  generalize Queue.holding config.errorLimit (faultsOf bytes) = q
  cases done : c.performAll _ with
  | mk next failure =>
      rw [done] at staged
      cases failure with
      | some cause => exact staged.trans (List.append_nil _).symm
      | none =>
          have shows := performAll_showing config q next
          have shown := Console.events_performAll (congrArg Prod.snd shows)
          rw [filterMap_event?_showing, staged, shows] at shown
          dsimp only
          rw [Plan.perform, shows]
          exact shown

/-- What a run over a script logs, beside what the sweep of its text logs and what is shown on an
error stream that does not fail. If there are faults in the script, and its output does not fail
either, it logs how many lines were written for them and how many more there were, which together
are as many as the sweep has counted; and otherwise nothing of the kind. -/
structure Logged (told : Told Queue) : Prop where
  swept : Sweep.lex (decodeLossy bytes) (Queue.withLimit config.errorLimit) = .ok told
  counts : told.reporter.flush.1.length + told.reporter.suppressed = told.faults
  events : ∀ c, ((plan config path (.ok bytes)).perform c).1.events.toList =
    c.events.toList ++ .scriptStarted path :: told.events.toList ++
      shownEvents told.reporter ((plan config path (.ok bytes)).perform c).2
  result : ∀ c : Console, c.out.Unfailing → ((plan config path (.ok bytes)).perform c).2 =
    .ok (if 0 < told.faults then some .reported else none)
  lines : byteLines ((plan config path (.ok bytes)).perform {}).1.err.toList =
    told.reporter.flush.1.map (Emitter.lineBytes (config.color.colors false)) ++
      Emitter.noteLines (config.color.colors false) told.reporter.suppressed
  unreadable : ∀ cause c, ((plan config path (.error cause)).perform c).1.events.toList =
    c.events.toList ++ [.scriptStarted path]

/-- **Scripts.** What a run over a script logs agrees with what it sweeps and with what it shows. -/
theorem exists_logged : ∃ told, Logged config path bytes told := by
  have reporter := (Scan.ofList (decodeLossy bytes)).reporter_told config.errorLimit
  have faults := (Scan.ofList (decodeLossy bytes)).faults_told (Queue.withLimit config.errorLimit)
  rw [← faultsOf] at reporter faults
  refine ⟨_, Sweep.lex_eq _ _, ?_, ?_, ?_, ?_, ?_⟩
  · have kept := (List.mergeSort_perm (Queue.holding config.errorLimit (faultsOf bytes)).toList
      Diagnostic.positionLE).length_eq
    have count := Queue.errorCount_holding config.errorLimit (faultsOf bytes)
    rw [reporter, faults, Queue.flush_eq_mergeSort, kept]
    exact count
  · intro c
    rw [reporter]
    exact events_perform_plan config path bytes c
  · intro c unfailing
    have fresh : Console.Unfailing { c with err := {} } := ⟨unfailing, ⟨rfl, rfl⟩⟩
    have unchanged := (Plan.unaffected (plan config path (.ok bytes))).result c c.err {}
    rw [Plan.perform_of_unfailing fresh] at unchanged
    rw [faults]
    exact unchanged.trans (outcome_plan config path bytes)
  · rw [reporter]
    exact errorLines_eq config config.errorLimit path bytes
  · intro cause c
    exact c.events_record (.scriptStarted path)

end Script

/-- **The log.** It agrees with what was found, reported and shown. -/
theorem log_agrees :
    (∀ source limit, ∃ told body last reports found,
      Sweep.Logged source limit told body last reports found) ∧
    ∀ config path bytes, ∃ told, Script.Logged config path bytes told :=
  ⟨Sweep.exists_logged, Script.exists_logged⟩

end LoxScan
