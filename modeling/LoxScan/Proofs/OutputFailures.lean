import LoxScan.Proofs.Sessions

/-!
# Outputs that fail

An output may run full, at any byte, and a flush of it may fail. A run then ends right there. What
the output holds is what it would hold at this point of a run on an output that does not fail, cut
off where the room ends; what is on the error stream is what was shown before. Because a script
shows its faults after everything is printed and flushed, it shows nothing if this fails; a session
shows the faults of those lines for which it did not.

Where in a row of actions an output fails is found by what it takes: the first action that writes
more than there is room for (`exists_overflow`), or the flush with the number of the failing one
(`exists_flush`). Everything before it is performed as on any other output.

* **`performAll_of_overflow`**, **`performAll_of_flush`**: where a row of actions stops, and what
  the output holds then.
* **`Plan.cutCleanly`**: so a failing output cuts off what a plan prints, and does nothing else to
  it.
* **`Script.err_of_failure`**: a script of which the output fails shows nothing.
* **`exists_answered`**: the lines of a session of which the faults are shown are those that were
  printed and flushed.
* **`output_cut_cleanly`**: what this means for a scan, a script and a session.
-/

namespace LoxScan

open Utf8

-- ── Writes in pieces ────────────────

namespace Sink

variable {s : Sink}

/-- Two texts are written as one: the second only if the first was written as a whole. -/
theorem write_append (s : Sink) (a b : String) :
    s.write (a ++ b) =
      match s.write a with
      | (next, none) => next.write b
      | (next, some failure) => (next, some failure) := by
  have whole : encode (a ++ b).toList = encode a.toList ++ encode b.toList := by
    rw [String.toList_append, encode_append]
  by_cases first : s.Fits (encode a.toList)
  · rw [first.write]
    by_cases second : (s.grown (encode a.toList) 0).Fits (encode b.toList)
    · have both : s.Fits (encode (a ++ b).toList) := by
        rw [whole]
        exact fits_append.2 ⟨first, second⟩
      rw [both.write]
      show _ = (s.grown (encode a.toList) 0).write b
      rw [second.write, grown_grown, whole]
    · have beyond : ¬ s.Fits (encode (a ++ b).toList) := by
        rw [whole]
        exact fun both => second (fits_append.1 both).2
      obtain ⟨room, limited, -, cut⟩ := write_of_not_fits beyond
      obtain ⟨room', limited', -, cut'⟩ := write_of_not_fits second
      obtain rfl : room = room' := Option.some.inj (limited.symm.trans limited')
      have bound := first room limited
      rw [cut]
      show _ = (s.grown (encode a.toList) 0).write b
      rw [cut', grown_grown, whole, List.take_append, List.take_of_length_le bound, size_grown,
        Nat.sub_sub]
  · have beyond : ¬ s.Fits (encode (a ++ b).toList) := by
      rw [whole]
      exact fun both => first (fits_append (m := 0) |>.1 both).1
    obtain ⟨room, limited, -, cut⟩ := write_of_not_fits beyond
    obtain ⟨room', limited', short, cut'⟩ := write_of_not_fits first
    obtain rfl : room = room' := Option.some.inj (limited.symm.trans limited')
    rw [cut, cut', whole, List.take_append_of_le_length (Nat.le_of_lt short)]

/-- A sink with room for some bytes takes as many, and all flushes. -/
theorem takes_of_length_le {n : Nat} (bytes : List UInt8) (enough : bytes.length ≤ n)
    (count : Nat) :
    ({ capacity := some n } : Sink).Takes bytes count := by
  refine ⟨?_, ?_⟩
  · intro room limited
    obtain rfl := Option.some.inj limited
    exact enough
  · intro k failing
    exact nomatch failing

/-- A sink of which one flush fails takes those before it. -/
theorem takes_of_lt {room : Option Nat} {bytes : List UInt8} {k count : Nat}
    (fits : ({ capacity := room } : Sink).Fits bytes) (before : count < k) :
    ({ capacity := room, failingFlush := some k } : Sink).Takes bytes count := by
  refine ⟨fits, ?_⟩
  intro number failing within
  have most : number ≤ 0 + count := within.2
  have failed : k = number := Option.some.inj failing
  omega

end Sink

namespace Console

/-- However a text is cut into pieces that are printed one after another, the run is the same. -/
theorem performAll_pieces (c : Console) (texts : List String) :
    c.performAll (texts.map Action.print) = c.performAll [.print (String.join texts)] := by
  induction texts generalizing c with
  | nil =>
      have nothing : c.out.write "" = (c.out, none) := by
        rw [Sink.Fits.write (by exact c.out.fits_nil)]
        exact congrArg (·, none) (Sink.grown_nil_zero c.out)
      simp [performAll, perform, String.join, nothing]
  | cons text texts ih =>
      have joined : String.join (text :: texts) = text ++ String.join texts := by simp
      rw [List.map_cons, performAll, joined, performAll, perform, perform, Sink.write_append]
      cases c.out.write text with
      | mk next failure =>
          cases failure with
          | none =>
              show performAll { c with out := next } (texts.map Action.print) = _
              rw [ih]
              rfl
          | some cause => rfl

-- ── Where a row of actions stops ────

variable {c : Console}

/-- What an action that succeeds writes to the output, the output took. -/
theorem takes_of_perform {action : Action} (h : (c.perform action).2 = none) :
    c.out.Takes action.output ([action].count .flush) ∧
      (c.perform action).1.out = c.out.grown action.output ([action].count .flush) := by
  cases action with
  | print text =>
      by_cases fits : c.out.Fits (encode text.toList)
      · refine ⟨⟨fits, c.out.flushes_zero⟩, ?_⟩
        exact congrArg Prod.fst fits.write
      · obtain ⟨room, -, -, cut⟩ := Sink.write_of_not_fits fits
        rw [perform, cut] at h
        cases h
  | flush =>
      by_cases sound : c.out.Flushes 1
      · refine ⟨⟨c.out.fits_nil, sound⟩, ?_⟩
        exact congrArg Prod.fst sound.flush
      · rw [perform, Sink.flush_of_not_flushes sound] at h
        cases h
  | warn text => exact ⟨⟨c.out.fits_nil, c.out.flushes_zero⟩, c.out.grown_nil_zero.symm⟩
  | flushWarnings => exact ⟨⟨c.out.fits_nil, c.out.flushes_zero⟩, c.out.grown_nil_zero.symm⟩
  | log event =>
      refine ⟨⟨c.out.fits_nil, c.out.flushes_zero⟩, Eq.trans ?_ c.out.grown_nil_zero.symm⟩
      rw [perform, record]
      split
      case h_1 => rfl
      case h_2 => rfl

/-- What a row of actions that all succeed writes to the output, the output took. -/
theorem takes_of_performAll {actions : List Action} (h : (c.performAll actions).2 = none) :
    c.out.Takes (actions.flatMap Action.output) (actions.count .flush) := by
  induction actions generalizing c with
  | nil => exact ⟨c.out.fits_nil, c.out.flushes_zero⟩
  | cons action actions ih =>
      rw [performAll] at h
      split at h
      case h_1 next performed =>
          have done : (c.perform action).2 = none := by rw [performed]
          obtain ⟨first, out⟩ := takes_of_perform done
          have later := ih h
          rw [show next = (c.perform action).1 by rw [performed], out] at later
          rw [← List.singleton_append, List.flatMap_append, List.count_append,
            List.flatMap_singleton]
          exact Sink.takes_append.2 ⟨first, later⟩
      case h_2 => cases h

/-- Where there is not room for all that some actions write, there is a first one with which there
is no room any more. -/
theorem exists_overflow {s : Sink} {actions : List Action}
    (h : ¬ s.Fits (actions.flatMap Action.output)) :
    ∃ before text after, actions = before ++ .print text :: after ∧
      s.Fits (before.flatMap Action.output) ∧
      ¬ s.Fits (before.flatMap Action.output ++ encode text.toList) := by
  induction actions generalizing s with
  | nil => exact absurd s.fits_nil h
  | cons action actions ih =>
      rw [List.flatMap_cons] at h
      by_cases first : s.Fits action.output
      · have rest : ¬ (s.grown action.output 0).Fits (actions.flatMap Action.output) :=
          fun fits => h (Sink.fits_append.2 ⟨first, fits⟩)
        obtain ⟨before, text, after, rfl, fits, beyond⟩ := ih rest
        refine ⟨action :: before, text, after, rfl, ?_, ?_⟩
        · rw [List.flatMap_cons]
          exact Sink.fits_append.2 ⟨first, fits⟩
        · rw [List.flatMap_cons, List.append_assoc]
          exact fun whole => beyond (Sink.fits_append.1 whole).2
      · cases action with
        | print text => exact ⟨[], text, actions, rfl, s.fits_nil, first⟩
        | _ => exact absurd s.fits_nil first

/-- Of at least so many flushes in a row of actions there is one with this number, counted from
one. -/
theorem exists_flush {k : Nat} {actions : List Action} (positive : 0 < k)
    (enough : k ≤ actions.count .flush) :
    ∃ before after, actions = before ++ .flush :: after ∧ before.count .flush + 1 = k := by
  induction actions generalizing k with
  | nil =>
      rw [List.count_nil] at enough
      omega
  | cons action actions ih =>
      by_cases flushes : action = .flush
      · subst flushes
        rw [List.count_cons_self] at enough
        by_cases first : k = 1
        · exact ⟨[], actions, rfl, first.symm⟩
        · obtain ⟨before, after, rfl, number⟩ := ih (k := k - 1) (by omega) (by omega)
          refine ⟨.flush :: before, after, rfl, ?_⟩
          rw [List.count_cons_self]
          omega
      · rw [List.count_cons_of_ne flushes] at enough
        obtain ⟨before, after, rfl, number⟩ := ih positive enough
        refine ⟨action :: before, after, rfl, ?_⟩
        rw [List.count_cons_of_ne flushes]
        exact number

/-- **No room.** If no flush fails, actions that write more than there is room for fill the output,
and end with the one that does so. -/
theorem performAll_of_overflow (unfailing : c.err.Unfailing) {actions : List Action}
    (sound : c.out.Flushes (actions.count .flush))
    (beyond : ¬ c.out.Fits (actions.flatMap Action.output)) :
    ∃ room next, c.out.capacity = some room ∧ c.performAll actions = (next, some .sinkFull) ∧
      next.out.toList =
        c.out.toList ++ (actions.flatMap Action.output).take (room - c.out.written.size) := by
  obtain ⟨before, text, rest, rfl, fits, more⟩ := exists_overflow beyond
  rw [List.count_append] at sound
  have taken : c.out.Takes (before.flatMap Action.output) (before.count .flush) :=
    ⟨fits, (Sink.flushes_add (a := []) |>.1 sound).1⟩
  have full : ¬ (c.after before).out.Fits (encode text.toList) :=
    fun last => more (Sink.fits_append.2 ⟨fits, last⟩)
  obtain ⟨room, limited, short, cut⟩ := Sink.write_of_not_fits full
  have bound := fits room limited
  have size : (c.after before).out.written.size =
      c.out.written.size + (before.flatMap Action.output).length := Sink.size_grown ..
  rw [size] at short cut
  refine ⟨room, { c.after before with out := ((c.after before).out.write text).1 },
    limited, ?_, ?_⟩
  · rw [performAll_append, performAll_of_takes unfailing taken]
    show performAll _ (.print text :: rest) = _
    rw [performAll, perform, cut]
  · show ((c.after before).out.write text).1.toList = _
    rw [cut, Sink.toList_grown, toList_out_after, List.flatMap_append, List.flatMap_cons,
      List.take_append, List.take_of_length_le bound, Nat.sub_sub, Action.output,
      List.take_append_of_le_length (Nat.le_of_lt short), List.append_assoc]

/-- **A failing flush.** If the output takes all before it, a flush that fails ends a row of
actions, and leaves what was written before it. -/
theorem performAll_of_flush (unfailing : c.err.Unfailing) {before : List Action}
    (taken : c.out.Takes (before.flatMap Action.output) (before.count .flush))
    (failing : c.out.failingFlush = some (c.out.flushes + before.count .flush + 1))
    (rest : List Action) :
    ∃ next, c.performAll (before ++ .flush :: rest) = (next, some .flushFailed) ∧
      next.out.toList = c.out.toList ++ before.flatMap Action.output := by
  have fails : ¬ (c.after before).out.Flushes 1 := by
    intro sound
    exact sound _ failing ⟨Nat.lt_succ_self _, Nat.le_refl _⟩
  have cut := Sink.flush_of_not_flushes fails
  refine ⟨{ c.after before with out := (c.after before).out.flush.1 }, ?_, ?_⟩
  · rw [performAll_append, performAll_of_takes unfailing taken]
    show performAll _ (.flush :: rest) = _
    rw [performAll, perform, cut]
  · show (c.after before).out.flush.1.toList = _
    rw [Sink.toList_flush, toList_out_after]

/-- An action that adds nothing to the error stream leaves on it what it held. -/
theorem err_perform_of_silent {action : Action} (silent : action.warning c.line? = []) :
    (c.perform action).1.line? = c.line? ∧ (c.perform action).1.err.toList = c.err.toList := by
  have kept {text : String} (empty : encode text.toList = []) :
      (c.err.write text).1.toList = c.err.toList := by
    rw [Sink.Fits.write (by rw [empty]; exact c.err.fits_nil), Sink.toList_grown, empty,
      List.append_nil]
  cases action with
  | print text => exact ⟨rfl, rfl⟩
  | flush => exact ⟨rfl, rfl⟩
  | warn text => exact ⟨rfl, kept silent⟩
  | flushWarnings => exact ⟨rfl, rfl⟩
  | log event =>
      rw [Action.warning] at silent
      rw [perform, record]
      split
      case h_1 line shown =>
          rw [shown] at silent
          exact ⟨rfl, kept silent⟩
      case h_2 => exact ⟨rfl, rfl⟩

/-- Actions that add nothing to the error stream leave on it what it held, however far they come. -/
theorem err_performAll_of_silent {actions : List Action}
    (silent : actions.flatMap (Action.warning c.line?) = []) :
    (c.performAll actions).1.err.toList = c.err.toList := by
  induction actions generalizing c with
  | nil => rfl
  | cons action actions ih =>
      rw [List.flatMap_cons, List.append_eq_nil_iff] at silent
      obtain ⟨first, later⟩ := silent
      have quiet := err_perform_of_silent first
      rw [performAll]
      split
      case h_1 next performed =>
          rw [performed] at quiet
          rw [ih (by rw [quiet.1]; exact later), quiet.2]
      case h_2 next cause performed =>
          rw [performed] at quiet
          exact quiet.2

end Console

-- ── Plans ───────────────────────────

namespace Plan

variable {α : Type}

/-- What an output that fails does to a plan. With room for some bytes only, it holds the first of
those that are printed; if that is all of them, the result is what it would be anyway, and else that
the output is full. If a flush fails, and there is room for everything before, it holds what is
printed before that flush, and the flush is the result; if there is no flush with this number,
nothing changes. -/
structure CutCleanly (plan : Plan α) : Prop where
  captured : ∀ n, (plan.onto { capacity := some n }).1.out.toList = plan.printed.take n
  enough : ∀ n, plan.printed.length ≤ n →
    (plan.onto { capacity := some n }).2 = (plan.onto {}).2
  full : ∀ n, n < plan.printed.length →
    (plan.onto { capacity := some n }).2 = .error (.stream .sinkFull)
  flushFailed : ∀ k, 0 < k → k ≤ (plan.onto {}).1.out.flushes →
    ∃ before rest, plan.actions = before ++ .flush :: rest ∧ before.count .flush + 1 = k ∧
      before.flatMap Action.output <+: plan.printed ∧
      ∀ room, ({ capacity := room } : Sink).Fits (before.flatMap Action.output) →
        (plan.onto { capacity := room, failingFlush := some k }).1.out.toList =
            before.flatMap Action.output ∧
          (plan.onto { capacity := room, failingFlush := some k }).2 = .error (.stream .flushFailed)
  unflushed : ∀ k, (plan.onto {}).1.out.flushes < k →
    ∀ room, ({ capacity := room } : Sink).Fits plan.printed →
      (plan.onto { capacity := room, failingFlush := some k }).1.out.toList = plan.printed ∧
        (plan.onto { capacity := room, failingFlush := some k }).2 = (plan.onto {}).2

/-- An output that takes all that a plan prints and flushes changes nothing. -/
theorem onto_of_takes (plan : Plan α) {out : Sink}
    (h : out.Takes (plan.actions.flatMap Action.output) (plan.actions.count .flush)) :
    (plan.onto out).1.out = out.grown (plan.actions.flatMap Action.output)
        (plan.actions.count .flush) ∧
      (plan.onto out).2 = plan.outcome := by
  have done := Console.performAll_of_takes (c := { out }) ⟨rfl, rfl⟩ h
  rw [onto, perform, done]
  exact ⟨rfl, rfl⟩

/-- The outcome has no part in what is on the error stream. -/
theorem err_perform (plan : Plan α) (c : Console) :
    (plan.perform c).1.err = (c.performAll plan.actions).1.err := by
  rw [perform]
  split
  case h_1 next performed => rw [performed]
  case h_2 next cause performed => rw [performed]

theorem onto_of_failure {plan : Plan α} {out : Sink} {next : Console} {cause : StreamError}
    (h : Console.performAll { out } plan.actions = (next, some cause)) :
    plan.onto out = (next, .error (.stream cause)) := by
  rw [onto, perform, h]

/-- A plan prints what its actions do. -/
theorem printed_eq (plan : Plan α) : plan.printed = plan.actions.flatMap Action.output := by
  rw [printed, (onto_of_takes plan (Sink.Unfailing.takes (s := {}) ⟨rfl, rfl⟩ _ _)).1,
    Sink.toList_grown]
  rfl

/-- Without a failure the result is the outcome, after all flushes. -/
theorem onto_unlimited (plan : Plan α) :
    (plan.onto {}).2 = plan.outcome ∧
      (plan.onto {}).1.out.flushes = plan.actions.count .flush := by
  obtain ⟨out, result⟩ := onto_of_takes plan (Sink.Unfailing.takes (s := {}) ⟨rfl, rfl⟩ _ _)
  refine ⟨result, ?_⟩
  rw [out, Sink.flushes_grown]
  exact Nat.zero_add _

section Limits

variable {plan : Plan α} {n : Nat}

/-- Room for all that is printed is enough. -/
theorem onto_of_length_le (enough : plan.printed.length ≤ n) :
    (plan.onto { capacity := some n }).1.out.toList = plan.printed ∧
      (plan.onto { capacity := some n }).2 = plan.outcome := by
  rw [printed_eq] at enough ⊢
  obtain ⟨out, result⟩ := onto_of_takes plan (Sink.takes_of_length_le _ enough _)
  refine ⟨?_, result⟩
  rw [out, Sink.toList_grown]
  rfl

/-- Room for less is filled, and this is the result. -/
theorem onto_of_lt_length (short : n < plan.printed.length) :
    (plan.onto { capacity := some n }).1.out.toList = plan.printed.take n ∧
      (plan.onto { capacity := some n }).2 = .error (.stream .sinkFull) := by
  rw [printed_eq] at short ⊢
  have beyond : ¬ ({ capacity := some n } : Sink).Fits (plan.actions.flatMap Action.output) :=
    fun fits => absurd (fits n rfl) (Nat.not_le_of_lt short)
  have sound : ({ capacity := some n } : Sink).Flushes (plan.actions.count .flush) :=
    (Sink.takes_of_length_le [] (Nat.zero_le n) _).flushes
  obtain ⟨room, next, limited, ended, text⟩ :=
    Console.performAll_of_overflow (c := { out := { capacity := some n } })
      ⟨rfl, rfl⟩ sound beyond
  obtain rfl := Option.some.inj limited
  rw [onto_of_failure ended]
  exact ⟨text, rfl⟩

/-- A flush that fails leaves what was printed before it, and is the result. -/
theorem onto_of_failingFlush {before rest : List Action}
    (cut : plan.actions = before ++ .flush :: rest)
    {room : Option Nat} (fits : ({ capacity := room } : Sink).Fits (before.flatMap Action.output)) :
    (plan.onto { capacity := room, failingFlush := some (before.count .flush + 1) }).1.out.toList =
        before.flatMap Action.output ∧
      (plan.onto { capacity := room, failingFlush := some (before.count .flush + 1) }).2 =
        .error (.stream .flushFailed) := by
  have taken := Sink.takes_of_lt fits (Nat.lt_succ_self (before.count .flush))
  obtain ⟨next, ended, text⟩ := Console.performAll_of_flush
    (c := { out := { capacity := room, failingFlush := some (before.count .flush + 1) } })
      ⟨rfl, rfl⟩ taken
    (congrArg (fun number => some (number + 1)) (Nat.zero_add _).symm) rest
  rw [← cut] at ended
  rw [onto_of_failure ended]
  exact ⟨text, rfl⟩

end Limits

/-- **Clean cuts.** A failing output cuts off what a plan prints, and does nothing else to it. -/
theorem cutCleanly (plan : Plan α) : plan.CutCleanly := by
  obtain ⟨outcome, flushes⟩ := onto_unlimited plan
  refine ⟨?_, ?_, ?_, ?_, ?_⟩
  · intro n
    by_cases enough : plan.printed.length ≤ n
    · rw [(onto_of_length_le enough).1, List.take_of_length_le enough]
    · exact (onto_of_lt_length (Nat.not_le.1 enough)).1
  · intro n enough
    rw [(onto_of_length_le enough).2, outcome]
  · intro n short
    exact (onto_of_lt_length short).2
  · intro k positive enough
    rw [flushes] at enough
    obtain ⟨before, rest, cut, rfl⟩ := Console.exists_flush positive enough
    refine ⟨before, rest, cut, rfl, ?_, ?_⟩
    · rw [printed_eq, cut, List.flatMap_append]
      exact List.prefix_append ..
    · intro room fits
      exact onto_of_failingFlush cut fits
  · intro k beyond room fits
    rw [flushes] at beyond
    rw [printed_eq] at fits ⊢
    obtain ⟨text, result⟩ := onto_of_takes plan (Sink.takes_of_lt fits beyond)
    rw [text, result, outcome, Sink.toList_grown]
    exact ⟨rfl, rfl⟩

end Plan

-- ── What is shown before a failure ──

/-- **A stage.** Actions of which the first show nothing and the others neither print nor flush are
all performed if the output takes the first, and otherwise fail before anything is shown. -/
theorem Console.performAll_stage {c : Console} (unfailing : c.err.Unfailing)
    {first second : List Action}
    (silent : first.flatMap (Action.warning c.line?) = [])
    (unprinted : second.flatMap Action.output = [])
    (unflushed : .flush ∉ second) (rest : List Action) :
    (c.out.Takes (first.flatMap Action.output) (first.count .flush) ∧
        c.performAll (first ++ second ++ rest) = (c.after (first ++ second)).performAll rest) ∨
      (¬ c.out.Takes (first.flatMap Action.output) (first.count .flush) ∧
        ∃ next cause, c.performAll (first ++ second ++ rest) = (next, some cause) ∧
          next.err.toList = c.err.toList) := by
  by_cases taken : c.out.Takes (first.flatMap Action.output) (first.count .flush)
  · left
    refine ⟨taken, ?_⟩
    have both :
        c.out.Takes ((first ++ second).flatMap Action.output) ((first ++ second).count .flush) := by
      rw [List.flatMap_append, unprinted, List.append_nil, List.count_append,
        List.count_eq_zero.2 unflushed]
      exact taken
    rw [performAll_append, performAll_of_takes unfailing both]
  · right
    refine ⟨taken, ?_⟩
    have shown := err_performAll_of_silent silent
    rw [List.append_assoc, performAll_append]
    cases performed : c.performAll first with
    | mk next failure =>
        rw [performed] at shown
        cases failure with
        | none => exact absurd (takes_of_performAll (by rw [performed])) taken
        | some cause => exact ⟨next, cause, rfl, shown⟩

namespace Script

/-- What is done with a script before anything is shown of it. -/
def dumping (config : Config) (path : String) (bytes : List UInt8) : List Action :=
  .log (.scriptStarted path) ::
    ((scanText config (decodeLossy bytes) (Queue.withLimit config.errorLimit)).1 ++ [.flush])

/-- Everything is printed before anything is shown. -/
theorem actions_eq_dumping (config : Config) (path : String) (bytes : List UInt8) :
    (plan config path (.ok bytes)).actions = dumping config path bytes ++
      showing config (scanText config (decodeLossy bytes)
        (Queue.withLimit config.errorLimit)).2 := by
  simp [dumping, plan, planText]

/-- A script of which the output fails shows nothing. -/
theorem err_of_failure (config : Config) (path : String) (content : Except ReadError (List UInt8))
    {out : Sink} {cause : StreamError}
    (h : ((plan config path content).onto out).2 = .error (.stream cause)) :
    ((plan config path content).onto out).1.err.toList = [] := by
  cases content with
  | error unread => cases h
  | ok bytes =>
      obtain ⟨unprinted, unflushed⟩ := output_showing config
        (scanText config (decodeLossy bytes) (Queue.withLimit config.errorLimit)).2
      have silent : (dumping config path bytes).flatMap (Action.warning fun _ => none) = [] := by
        rw [dumping, List.flatMap_cons, List.flatMap_append, warning_scanText,
          Action.warning_log_none]
        rfl
      have stage := Console.performAll_stage (c := { out })
        ⟨rfl, rfl⟩ silent unprinted unflushed []
      rw [List.append_nil, ← actions_eq_dumping] at stage
      rcases stage with ⟨-, done⟩ | ⟨-, next, failed, ended, shown⟩
      · rw [Plan.onto, Plan.perform, done] at h
        cases h
      · rw [Plan.onto_of_failure ended]
        exact shown

end Script

namespace Prompt

/-- What a session prints until a row of texts is answered: the prompt and the dump of each. -/
def dialogue (config : Config) (texts : List (List Char)) : List UInt8 :=
  texts.flatMap fun text => encode "> ".toList ++ dumped config text

/-- Asking for a line and printing its dump. -/
def dumping (config : Config) (text : List Char) : List Action :=
  asking ++ ((Script.scanText config text (Queue.withLimit config.errorLimit)).1 ++ [.flush])

/-- After the dump of a line its faults are shown. -/
theorem asking_answer (config : Config) (text : List Char) :
    asking ++ answer config text = dumping config text ++ Script.showing config
      (Script.scanText config text (Queue.withLimit config.errorLimit)).2 := by
  simp [dumping, answer, answering]

/-- What a line adds to a session. -/
theorem turn_adds (config : Config) (text : List Char) :
    (asking ++ answer config text).flatMap Action.output = dialogue config [text] ∧
      (asking ++ answer config text).flatMap (Action.warning fun _ => none) =
        rendered config text ∧
      (asking ++ answer config text).count .flush = 2 := by
  obtain ⟨asks, silent, once⟩ := asking_adds
  refine ⟨?_, ?_, ?_⟩
  · rw [List.flatMap_append, asks, output_answer]
    exact (List.append_nil _).symm
  · rw [List.flatMap_append, silent, warning_answer]
    rfl
  · rw [List.count_append, once, count_flush_answer]

/-- Of this its dump adds all that is printed, and nothing that is shown. -/
theorem dumping_adds (config : Config) (text : List Char) :
    (dumping config text).flatMap Action.output = dialogue config [text] ∧
      (dumping config text).flatMap (Action.warning fun _ => none) = [] ∧
        (dumping config text).count .flush = 2 := by
  obtain ⟨output, -, flushes⟩ := turn_adds config text
  obtain ⟨unprinted, unflushed⟩ := Script.output_showing config
    (Script.scanText config text (Queue.withLimit config.errorLimit)).2
  rw [asking_answer, List.flatMap_append, unprinted, List.append_nil] at output
  rw [asking_answer, List.count_append, List.count_eq_zero.2 unflushed] at flushes
  refine ⟨output, ?_, flushes⟩
  rw [dumping, List.flatMap_append, List.flatMap_append, asking_adds.2.1, Script.warning_scanText]
  rfl

/-- The streams of a session after a line. -/
theorem after_turn (config : Config) (text : List Char) {c : Console}
    (unlogged : c.line? = fun _ => none) :
    (c.after (asking ++ answer config text)).out = c.out.grown (dialogue config [text]) 2 ∧
      (c.after (asking ++ answer config text)).err.toList =
        c.err.toList ++ rendered config text := by
  obtain ⟨prints, shows, twice⟩ := turn_adds config text
  constructor
  · rw [Console.after, prints, twice]
  · rw [Console.toList_err_after, unlogged, shows]

/-- No text at all is answered in any case. -/
theorem nil_answered (config : Config) (done : List (List Char)) (s : Sink) :
    [] <+: done ↔ s.Takes (dialogue config []) (2 * 0) :=
  iff_of_true List.nil_prefix ⟨s.fits_nil, s.flushes_zero⟩

/-- An output takes the dumps of a row of lines if it takes that of the first and then those of the
others. -/
theorem takes_dialogue_cons (config : Config) (text : List Char)
    (texts : List (List Char)) (s : Sink) :
    s.Takes (dialogue config (text :: texts)) (2 * (text :: texts).length) ↔
      s.Takes (dialogue config [text]) 2 ∧
        (s.grown (dialogue config [text]) 2).Takes (dialogue config texts) (2 * texts.length) := by
  rw [← Sink.takes_append, List.length_cons, Nat.mul_succ, Nat.add_comm]
  simp [dialogue]

/-- **Answered lines.** However the output of a session fails, what is on the error stream are the
faults of the first so many lines, which are those that the output took with the flush after
them. -/
theorem exists_answered (config : Config) (texts : List (List Char)) (ending : Except Failure Unit)
    {c : Console} (unfailing : c.err.Unfailing) (unlogged : c.line? = fun _ => none) :
    ∃ done, done <+: texts ∧
      (c.performAll (texts.flatMap (fun text => asking ++ answer config text) ++ asking ++
        closing ending)).1.err.toList = c.err.toList ++ done.flatMap (rendered config) ∧
      ∀ part, part <+: texts →
        (part <+: done ↔ c.out.Takes (dialogue config part) (2 * part.length)) := by
  induction texts generalizing c with
  | nil =>
      refine ⟨[], List.prefix_rfl, ?_, ?_⟩
      · have silent : (asking ++ closing ending).flatMap (Action.warning c.line?) = [] := by
          rw [unlogged, List.flatMap_append, asking_adds.2.1, (closing_adds ending).2.1]
          rfl
        exact (Console.err_performAll_of_silent silent).trans (List.append_nil _).symm
      · intro part inside
        obtain rfl := List.prefix_nil.1 inside
        exact nil_answered config [] c.out
  | cons text texts ih =>
      obtain ⟨output, silent, flushes⟩ := dumping_adds config text
      obtain ⟨unprinted, unflushed⟩ := Script.output_showing config
        (Script.scanText config text (Queue.withLimit config.errorLimit)).2
      have stage :=
        Console.performAll_stage unfailing (by rw [unlogged]; exact silent) unprinted unflushed
        (texts.flatMap (fun text => asking ++ answer config text) ++ asking ++ closing ending)
      rw [output, flushes, ← asking_answer] at stage
      have cut : (text :: texts).flatMap (fun text => asking ++ answer config text) ++ asking ++
          closing ending = asking ++ answer config text ++
            (texts.flatMap (fun text => asking ++ answer config text) ++ asking ++
              closing ending) := by
        simp only [List.flatMap_cons, List.append_assoc]
      rw [cut]
      rcases stage with ⟨taken, performed⟩ | ⟨refused, next, cause, failed, shown⟩
      · obtain ⟨out, err⟩ := after_turn config text unlogged
        obtain ⟨done, inside, later, answered⟩ :=
          ih (c := c.after (asking ++ answer config text)) (unfailing.grown _ _) unlogged
        refine ⟨text :: done, List.cons_prefix_cons.2 ⟨rfl, inside⟩, ?_, ?_⟩
        · rw [performed, later, err, List.flatMap_cons, List.append_assoc]
        · intro part heard
          cases part with
          | nil => exact nil_answered config (text :: done) c.out
          | cons first part =>
              obtain ⟨rfl, more⟩ := List.cons_prefix_cons.1 heard
              rw [takes_dialogue_cons, ← out, ← answered part more, List.cons_prefix_cons]
              exact ⟨fun both => ⟨taken, both.2⟩, fun both => ⟨rfl, both.2⟩⟩
      · refine ⟨[], List.nil_prefix, ?_, ?_⟩
        · rw [failed]
          exact shown.trans (List.append_nil _).symm
        · intro part inside
          cases part with
          | nil => exact nil_answered config [] c.out
          | cons first part =>
              obtain ⟨rfl, -⟩ := List.cons_prefix_cons.1 inside
              refine iff_of_false ?_ ?_
              · exact fun short => List.cons_ne_nil _ _ (List.prefix_nil.1 short)
              · exact fun taken =>
                  refused ((takes_dialogue_cons config first part c.out).1 taken).1

end Prompt

-- ── Runs ────────────────────────────

/-- What an output that fails does to a scan, a script and a session. It cuts off what they print,
in however many pieces this is written. If it fails, a script has shown nothing, and a session has
shown the faults of the lines of which the output took the whole dump and the flush after it. -/
structure OutputCutCleanly (config : Config) : Prop where
  pieces : ∀ (console : Console) (texts : List String),
    console.performAll (texts.map Action.print) = console.performAll [.print (String.join texts)]
  scan : ∀ {ρ : Type} [Reporter ρ] (text : List Char) (reporter : ρ),
    Plan.CutCleanly (⟨(Script.scanText config text reporter).1, .ok ()⟩ : Plan Unit)
  script : ∀ path content, (Script.plan config path content).CutCleanly
  scriptShown : ∀ path content out cause,
    ((Script.plan config path content).onto out).2 = .error (.stream cause) →
      ((Script.plan config path content).onto out).1.err.toList = []
  session : ∀ input, (Prompt.plan config input).CutCleanly
  sessionShown : ∀ input out, ∃ done, done <+: Prompt.textsOf (byteLines input) ∧
    ((Prompt.plan config input).onto out).1.err.toList = done.flatMap (Prompt.rendered config) ∧
    ∀ part, part <+: Prompt.textsOf (byteLines input) →
      (part <+: done ↔ out.Takes (Prompt.dialogue config part) (2 * part.length))

/-- **Clean cuts.** An output that fails cuts off what is printed, and nothing is shown of what it
did not take. -/
theorem output_cut_cleanly (config : Config) : OutputCutCleanly config := by
  refine ⟨Console.performAll_pieces, ?_, ?_, ?_, ?_, ?_⟩
  · intro ρ _ text reporter
    exact Plan.cutCleanly _
  · intro path content
    exact Plan.cutCleanly _
  · intro path content out cause failed
    exact Script.err_of_failure config path content failed
  · intro input
    exact Plan.cutCleanly _
  · intro input out
    obtain ⟨done, inside, shown, answered⟩ := Prompt.exists_answered config
      (Prompt.textsOf (byteLines input)) (Prompt.endingOf (byteLines input))
      (c := { out }) ⟨rfl, rfl⟩ rfl
    refine ⟨done, inside, ?_, answered⟩
    rw [Plan.onto, Plan.err_perform, Prompt.plan_eq_planLines, Prompt.planLines_eq]
    exact shown

end LoxScan
