import LoxScan.Proofs.SideBySide
import LoxScan.Run.Prompt

/-!
# Error streams without influence

A run never learns how its error stream fares. What is written there may be cut off anywhere, and
flushes may fail, but what is printed, the result, and the count of errors are the same. And what is
cut off stays cut off: the text is that of a stream that takes everything, as far as there is room,
for of what is written after the room is used up not one byte arrives.

This is said of runs as they go: a script prints and then shows its faults on the error stream, a
session does both for one line before it asks for the next, and an emitter stands between them and
the stream. Such a run might learn something from its error stream, but it is the same as performing
a plan, in which all that is to be written has been settled before the first byte is.

* **`performAll_showing`**: an emitter that writes later shows what one shows that writes at once.
* **`Script.run_eq`**, **`Prompt.runFrom_eq`**: so a run that shows at once is the run of its plan.
* **`error_stream_without_influence`**: so no error stream has any influence on a run, nor on an
  emitter.
-/

namespace LoxScan

open Utf8

-- ── Showing at once ─────────────────

namespace Script

/-- Actions beside an error stream that is what performing them makes of it. -/
theorem keeps_performed (c : Console) :
    Writer.Keeps fun (actions : Array Action) (err : Sink) =>
      c.performAll actions.toList = ({ c with err }, none) := by
  refine ⟨?_, ?_⟩
  · intro actions err text performed
    show c.performAll (actions.push (.warn text)).toList = _
    rw [Array.toList_push, Console.performAll_append, performed]
    rfl
  · intro actions err performed
    show c.performAll (actions.push .flushWarnings).toList = _
    rw [Array.toList_push, Console.performAll_append, performed]
    rfl

/-- **Showing at once.** What an emitter over the error stream shows at once, the actions of one
that writes later show when they are performed. It counts the same, and none of this fails. -/
theorem performAll_showing (config : Config) (q : Queue) (c : Console) :
    c.performAll (showing config q) = (showAtOnce config q c, none) := by
  have kept := keeps_performed c
  have fresh : Emitter.Beside (fun (actions : Array Action) err =>
      c.performAll actions.toList = ({ c with err }, none)) (emitter config #[])
        (emitter config c.err) := ⟨rfl, rfl, rfl⟩
  obtain ⟨performed, -, count⟩ :=
    ((fresh.reportAll kept q.flush.1).noteSuppressed kept q.suppressed).flush kept
  have shows : c.performAll (collected config q).writer.toList =
      ({ c with err := (shown config q c.err).writer }, none) := performed
  have counts : (collected config q).errorCount = (shown config q c.err).errorCount := count
  cases found : Reporter.guarantee? q with
  | none =>
      rw [showing, showAtOnce, found]
      rfl
  | some evidence =>
      rw [showing, showAtOnce, found]
      show c.performAll (_ ++ [.log _]) = _
      rw [Console.performAll_append, shows, counts]
      rfl

end Script

-- ── Runs that show at once ──────────

/-- A plan is performed in parts, the later part only if the earlier one does not fail. -/
theorem Plan.perform_append {α : Type} (a b : List Action) (outcome : Except Failure α)
    (c : Console) :
    (⟨a ++ b, outcome⟩ : Plan α).perform c =
      match c.performAll a with
      | (next, none) => (⟨b, outcome⟩ : Plan α).perform next
      | (next, some cause) => (next, .error (.stream cause)) := by
  rw [perform, Console.performAll_append]
  cases c.performAll a with
  | mk next failure =>
      cases failure with
      | none => rfl
      | some cause => rfl

/-- A script is run as it is planned. -/
theorem Script.run_eq (config : Config) (path : String) (content : Except ReadError (List UInt8))
    (c : Console) : run config path content c = (plan config path content).perform c := by
  cases content with
  | error cause => rfl
  | ok bytes =>
      let scanned := scanText config (decodeLossy bytes) (Queue.withLimit config.errorLimit)
      have parts : scanned.1 ++ .flush :: showing config scanned.2 =
          scanned.1 ++ [.flush] ++ showing config scanned.2 := by simp
      show _ =
        (⟨[.log (.scriptStarted path)] ++ (scanned.1 ++ .flush :: showing config scanned.2),
        .ok (Reporter.guarantee? scanned.2)⟩ : Plan _).perform c
      rw [Plan.perform_append, parts]
      show _ = (⟨scanned.1 ++ [.flush] ++ showing config scanned.2,
        .ok (Reporter.guarantee? scanned.2)⟩ : Plan _).perform (c.record (.scriptStarted path))
      rw [Plan.perform_append, run]
      cases (c.record (.scriptStarted path)).performAll (scanned.1 ++ [.flush]) with
      | mk next failure =>
          cases failure with
          | none =>
              show _ = (⟨showing config scanned.2, _⟩ : Plan _).perform next
              rw [Plan.perform, performAll_showing]
          | some cause => rfl

namespace Prompt

/-- A session is run as it is planned. -/
theorem runFrom_eq (config : Config) (q : Queue) (input : List UInt8) (c : Console) :
    runFrom config q input c = (planFrom config q input).perform c := by
  fun_induction planFrom config q input generalizing c with
  | case1 q input closes =>
      rw [Plan.perform_append]
      cases asks : c.performAll asking with
      | mk asked failure =>
          cases failure with
          | none => exact runFrom_of_closes asks closes
          | some cause => exact runFrom_of_failure asks
  | case2 q input fails =>
      rw [← List.append_nil asking, Plan.perform_append]
      cases asks : c.performAll asking with
      | mk asked failure =>
          cases failure with
          | none => exact runFrom_of_fails asks fails
          | some cause => exact runFrom_of_failure asks
  | case3 q input text scans answered later ih =>
      have parts : answered.1 ++ later.actions = (Script.scanText config text q).1 ++ [.flush] ++
          (Script.showing config (Script.scanText config text q).2 ++ later.actions) := by
        simp [answered, answering]
      rw [List.append_assoc, parts, Plan.perform_append]
      cases asks : c.performAll asking with
      | mk asked failure =>
          cases failure with
          | some cause => exact runFrom_of_failure asks
          | none =>
              show _ = (⟨_, later.outcome⟩ : Plan Unit).perform asked
              rw [runFrom_of_scans asks scans, Plan.perform_append]
              cases asked.performAll ((Script.scanText config text q).1 ++ [.flush]) with
              | mk next failure =>
                  cases failure with
                  | some cause => rfl
                  | none =>
                      show _ = (⟨_, later.outcome⟩ : Plan Unit).perform next
                      rw [Plan.perform_append, Script.performAll_showing]
                      exact ih _

end Prompt

-- ── Runs ────────────────────────────

/-- What an error stream does to a run: nothing. The result and the output, with its flushes, are
the same on any two of them, and one with room for some bytes holds the first of those that one with
room for all of them holds. -/
structure Unaffected {α : Type} (run : Console → Console × Except Failure α) : Prop where
  result : ∀ (c : Console) (err err' : Sink),
    (run { c with err }).2 = (run { c with err := err' }).2
  out : ∀ (c : Console) (err err' : Sink),
    (run { c with err }).1.out = (run { c with err := err' }).1.out
  captured : ∀ (c : Console) (n : Nat) (failing failing' : Option Nat),
    (run { c with err := { capacity := some n, failingFlush := failing } }).1.err.toList =
      (run { c with err := { failingFlush := failing' } }).1.err.toList.take n

theorem Plan.unaffected {α : Type} (plan : Plan α) : Unaffected plan.perform := by
  have beside (c : Console) (err err' : Sink) :
      Console.Beside (fun _ _ => True) { c with err } { c with err := err' } :=
    ⟨trivial, rfl, rfl, rfl⟩
  refine ⟨?_, ?_, ?_⟩
  · intro c err err'
    exact (plan.perform_beside Writer.keeps_true (beside c err err')).1
  · intro c err err'
    exact (plan.perform_beside Writer.keeps_true (beside c err err')).2.out
  · intro c n failing failing'
    have clips : Console.Beside (Sink.Clips n)
        { c with err := { capacity := some n, failingFlush := failing } }
        { c with err := { failingFlush := failing' } } :=
      ⟨⟨rfl, rfl, List.take_nil.symm⟩, rfl, rfl, rfl⟩
    exact (plan.perform_beside (Sink.keeps_clips n) clips).2.errs.held

/-- What the writers of two emitters do to the same operations: nothing. These all come to their
end, and what they give back is the same, and so are the count of errors, which is that of the
reports since the last reset, and all that is read off it. -/
structure Emitter.Unaffected {ω₁ ω₂ : Type} [Writer ω₁] [Writer ω₂]
    (ops : List Operation)
    (answers answers' : List Answer) (e₁ : Emitter ω₁) (e₂ : Emitter ω₂) : Prop where
  answers : answers = answers'
  errorCount : Reporter.errorCount e₁ = Reporter.errorCount e₂
  counted : Reporter.errorCount e₁ = (history ops).length
  hadError : Reporter.hadError e₁ = Reporter.hadError e₂
  guarantee : Reporter.guarantee? e₁ = Reporter.guarantee? e₂

/-- What error streams do to runs and emitters. Neither a script nor a session is affected, and both
are run as they are planned. Nor is an emitter, whatever is done to it, affected by what it writes
to; it leaves the first bytes on a sink that takes no more. -/
structure ErrorStreamInert (config : Config) : Prop where
  scriptPlanned : ∀ path content,
    Script.run config path content = (Script.plan config path content).perform
  script : ∀ path content, Unaffected (Script.run config path content)
  sessionPlanned : ∀ input, Prompt.run config input = (Prompt.plan config input).perform
  session : ∀ input, Unaffected (Prompt.run config input)
  emitter : ∀ {ω₁ ω₂ : Type} [Writer ω₁] [Writer ω₂] (w₁ : ω₁) (w₂ : ω₂)
    (colored : Bool) (ops : List Emitter.Operation), ∃ answers answers' e₁ e₂,
      stepAll Emitter.step { writer := w₁, colored } ops = .ok (answers, e₁) ∧
        stepAll Emitter.step { writer := w₂, colored } ops = .ok (answers', e₂) ∧
        Emitter.Unaffected ops answers answers' e₁ e₂
  emitted : ∀ (n : Nat) (failing failing' : Option Nat) (colored : Bool)
    (ops : List Emitter.Operation), ∃ answers answers' e₁ e₂,
      stepAll Emitter.step
          { writer := ({ capacity := some n, failingFlush := failing } : Sink), colored } ops =
        .ok (answers, e₁) ∧
      stepAll Emitter.step { writer := ({ failingFlush := failing' } : Sink), colored } ops =
        .ok (answers', e₂) ∧
      e₁.writer.toList = e₂.writer.toList.take n

/-- **No influence.** Whatever becomes of an error stream, nothing but what it holds depends on
it. -/
theorem error_stream_without_influence (config : Config) : ErrorStreamInert config := by
  have script (path : String) (content : Except ReadError (List UInt8)) :
      Script.run config path content = (Script.plan config path content).perform :=
    funext (Script.run_eq config path content)
  have session (input : List UInt8) :
    Prompt.run config input = (Prompt.plan config input).perform :=
    funext (Prompt.runFrom_eq config _ input)
  refine ⟨script, ?_, session, ?_, ?_, ?_⟩
  · intro path content
    rw [script]
    exact Plan.unaffected _
  · intro input
    rw [session]
    exact Plan.unaffected _
  · intro ω₁ ω₂ _ _ w₁ w₂ colored ops
    obtain ⟨answers, e₁, e₂, first, second, beside, count⟩ :=
      Emitter.stepAll_beside Writer.keeps_true w₁ w₂ trivial colored ops
    have counts : Reporter.errorCount e₁ = Reporter.errorCount e₂ := beside.errorCount
    refine ⟨answers, answers, e₁, e₂, first, second, rfl, counts, count, ?_, ?_⟩
    · rw [Reporter.hadError, Reporter.hadError, counts]
    · rw [Reporter.guarantee?, Reporter.guarantee?, counts]
  · intro n failing failing' colored ops
    have clips : Sink.Clips n { capacity := some n, failingFlush := failing }
        { failingFlush := failing' } := ⟨rfl, rfl, List.take_nil.symm⟩
    obtain ⟨answers, e₁, e₂, first, second, beside, -⟩ :=
      Emitter.stepAll_beside (Sink.keeps_clips n) _ _ clips colored ops
    exact ⟨answers, answers, e₁, e₂, first, second, beside.writers.held⟩

end LoxScan
