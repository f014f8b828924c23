import LoxScan.Diagnostic.Operation
import LoxScan.Proofs.QueueHistory
import LoxScan.Proofs.SweepSafety
import Mathlib.Data.List.DropRight

/-!
# Reporters by what was done to them

Any row of operations may have been done to a queue: reports of all kinds, whole scans, looks into
it, flushes and resets. What can be seen of it then does not depend on all of this. It is determined
by the limit and the row of what was reported since the queue was last emptied, by a flush or by a
reset, or since it was made.

Every operation comes to its end, a scan too, and changes a queue in one of two ways only: it
empties it, or it adds what it reports to the history. That is the step (`step_holding`), and an
induction on the last operation makes it the run.

* **`call_eq`**: what is done to a reporter, of whatever sort, is a reset or a row of reports.
* **`stepAll_withLimit`**: a queue holds what its history makes it hold.
* **`queue_by_history`**: so everything that can be seen of a queue is read off its history.
-/

namespace LoxScan

-- ── Reports since a reporter was emptied ──

/-- What the operations of a row report after the last one that empties. -/
def reportsSince {ο : Type} (empties : ο → Bool) (reports : ο → List Diagnostic)
    (ops : List ο) :
    List Diagnostic :=
  (ops.rtakeWhile (!empties ·)).flatMap reports

@[simp] theorem reportsSince_nil {ο : Type} (empties : ο → Bool)
    (reports : ο → List Diagnostic) :
    reportsSince empties reports [] = [] :=
  rfl

/-- One operation more leaves nothing, or adds what it reports. -/
theorem reportsSince_concat {ο : Type} (empties : ο → Bool) (reports : ο → List Diagnostic)
    (ops : List ο) (op : ο) :
    reportsSince empties reports (ops ++ [op]) =
      if empties op then [] else reportsSince empties reports ops ++ reports op := by
  by_cases last : empties op = true
  · rw [if_pos last, reportsSince,
      List.rtakeWhile_concat_neg _ _ _ (by rw [last]; exact Bool.false_ne_true)]
    rfl
  · rw [if_neg last, reportsSince, List.rtakeWhile_concat_pos _ _ _ (by simpa using last),
      List.flatMap_append, List.flatMap_singleton]
    rfl

-- ── Every reporter ──────────────────

namespace Reporter

namespace Call

/-- What a call tells a reporter. -/
def reports : Call → List Diagnostic
  | report d => [d]
  | errorAt line location message => [{ line, location, message }]
  | error line message => [{ line, message }]
  | lex source => (Scan.ofString source).diagnostics
  | reset => []

/-- Whether a call resets. -/
def resets : Call → Bool
  | reset => true
  | _ => false

/-- What a call gives back, whatever the reporter. -/
def answer : Call → Answer
  | lex source => .tokens (Scan.ofString source).tokens
  | _ => .nothing

end Call

/-- **One call.** It comes to its end, gives back what does not depend on the reporter, and is a
reset or a row of reports. -/
theorem call_eq {ρ : Type} [Reporter ρ] (r : ρ) (c : Call) :
    call r c = .ok (c.answer, if c.resets then reset r else reportAll r c.reports) := by
  cases c with
  | lex source =>
      rw [call, Sweep.lex_eq]
      rfl
  | _ => rfl

end Reporter

-- ── Queues ──────────────────────────

namespace Queue

namespace Operation

/-- What an operation reports. -/
def reports : Operation → List Diagnostic
  | call c => c.reports
  | peek => []
  | flush => []

/-- Whether an operation empties the queue. -/
def empties : Operation → Bool
  | call c => c.resets
  | peek => false
  | flush => true

end Operation

/-- What was reported since the queue was last emptied. -/
def history (ops : List Operation) : List Diagnostic :=
  reportsSince Operation.empties Operation.reports ops

/-- **One operation.** It empties the queue, or it adds what it reports to the history. -/
theorem step_holding (limit : Nat) (reports : List Diagnostic) (op : Operation) :
    ∃ answer, (holding limit reports).step op =
      .ok (answer, holding limit (if op.empties then [] else reports ++ op.reports)) := by
  cases op with
  | call c =>
      refine ⟨c.answer, ?_⟩
      show Reporter.call (holding limit reports) c =
        .ok (_, holding limit (if c.resets then [] else _))
      rw [Reporter.call_eq]
      by_cases last : c.resets = true
      · rw [if_pos last, if_pos last, holding_nil, ← reset_holding limit reports]
        rfl
      · rw [if_neg last, if_neg last, reportAll_holding]
        rfl
  | peek =>
      refine ⟨.diagnostics (within limit reports), ?_⟩
      show _ = Except.ok (_, holding limit (reports ++ []))
      rw [List.append_nil]
      rfl
  | flush =>
      refine ⟨.diagnostics (holding limit reports).flush.1, ?_⟩
      show _ = Except.ok (_, holding limit [])
      rw [holding_nil]
      rfl

/-- **Any operations.** Each of them comes to its end, and the queue holds what its history makes it
hold. -/
theorem stepAll_withLimit (limit : Nat) (ops : List Operation) :
    ∃ answers, stepAll step (withLimit limit) ops =
      .ok (answers, holding limit (history ops)) := by
  induction ops using List.reverseRecOn with
  | nil =>
      refine ⟨[], ?_⟩
      rw [history, reportsSince_nil, holding_nil]
      rfl
  | append_singleton ops op ih =>
      obtain ⟨answers, before⟩ := ih
      obtain ⟨answer, done⟩ := step_holding limit (history ops) op
      refine ⟨answers ++ [answer], ?_⟩
      rw [history, reportsSince_concat]
      exact stepAll_concat before done

/-- How many of some reports are kept under a limit: as many as it says, and all if it is zero. -/
def allowed (limit count : Nat) : Nat :=
  if limit = 0 then count else min count limit

theorem within_eq_take (limit : Nat) (reports : List Diagnostic) :
    within limit reports = reports.take (allowed limit reports.length) := by
  rw [within, allowed]
  split
  case isTrue => exact List.take_length.symm
  case isFalse => rw [Nat.min_comm, List.take_eq_take_min]

/-- Everything that can be seen of a queue with a limit, after some reports since it was last
emptied. It has kept the first of them, as many as the limit allows, and counts the others; both
together are counted as errors. A scan into it gives back the tokens of the source, whatever it
holds, and looking into it shows what it has kept and changes nothing. -/
structure Shows (limit : Nat) (reports : List Diagnostic) (q : Queue) : Prop where
  kept : q.toList = reports.take (allowed limit reports.length)
  suppressed : q.suppressed = reports.length - allowed limit reports.length
  errorCount : Reporter.errorCount q = reports.length
  limitReached : q.limitReached = true ↔ 0 < limit ∧ limit ≤ reports.length
  hadError : Reporter.hadError q = true ↔ reports ≠ []
  guarantee : (Reporter.guarantee? q).isSome = true ↔ reports ≠ []
  lex : ∀ source, ∃ next,
    q.step (.call (.lex source)) = .ok (.tokens (Scan.ofString source).tokens, next)
  peek : q.step .peek = .ok (.diagnostics q.toList, q)

theorem shows_holding (limit : Nat) (reports : List Diagnostic) :
    (holding limit reports).Shows limit reports := by
  have count : Reporter.errorCount (holding limit reports) = reports.length :=
    errorCount_holding limit reports
  have few : allowed limit reports.length ≤ reports.length := by
    rw [allowed]
    split <;> omega
  refine ⟨within_eq_take limit reports, ?_, count, limitReached_holding limit reports, ?_,
    ?_, ?_, rfl⟩
  · show reports.length - (within limit reports).length = _
    rw [within_eq_take, List.length_take_of_le few]
  · rw [Reporter.hadError, count, decide_eq_true_iff, List.length_pos_iff]
  · rw [Reporter.guarantee?, count, Guarantee.isSome_ofCount?, List.length_pos_iff]
  · intro source
    exact ⟨_, Reporter.call_eq (holding limit reports) (.lex source)⟩

end Queue

/-- **Queues by their history.** After any operations on a new queue, each of which comes to its
end, all that can be seen of it is what its limit and the reports since it was last emptied
determine. -/
theorem queue_by_history (limit : Nat) (ops : List Queue.Operation) :
    ∃ answers q, stepAll Queue.step (Queue.withLimit limit) ops = .ok (answers, q) ∧
      q.Shows limit (Queue.history ops) := by
  obtain ⟨answers, done⟩ := Queue.stepAll_withLimit limit ops
  exact ⟨answers, _, done, Queue.shows_holding limit (Queue.history ops)⟩

end LoxScan
