import LoxScan.Diagnostic.Emitter
import LoxScan.Diagnostic.Queue
import LoxScan.Scan.Sweep

/-!
# Operations on reporters

What can be done to a reporter from outside, one operation after another. Every reporter can be told
of a problem in three ways, a source can be scanned into it, and it can be reset; a queue can also
be looked into and flushed, and an emitter can be asked for its note and flushed. A scan goes over
the bytes of the source and tells the reporter of each fault when it finds it, so in principle it
could stop at a demand that is not met, and with it the row of operations.

* **`stepAll_concat`**: operations can be done in parts, the last one after all others.
-/

namespace LoxScan

/-- What an operation gives back. -/
inductive Answer
  | nothing
  | tokens (tokens : List Token)
  | diagnostics (diagnostics : List Diagnostic)
deriving DecidableEq

/-- Does one operation after another, up to the first that fails, and gives back the answers in
order. -/
def stepAll {σ ο : Type} (step : σ → ο → Except Demand (Answer × σ)) (s : σ) :
    List ο → Except Demand (List Answer × σ)
  | [] => .ok ([], s)
  | op :: rest => do
    let (answer, next) ← step s op
    let (answers, last) ← stepAll step next rest
    return (answer :: answers, last)

-- ── Every reporter ──────────────────

namespace Reporter

/-- What can be done to every reporter. -/
inductive Call
  /-- Tells it of a diagnostic. -/
  | report (d : Diagnostic)
  /-- Tells it of a message at a line and a place in the program. -/
  | errorAt (line : Word) (location message : String)
  /-- Tells it of a message at a line. -/
  | error (line : Word) (message : String)
  /-- Scans a source and tells it of the faults. -/
  | lex (source : String)
  /-- Resets it. -/
  | reset
deriving DecidableEq

/-- Does to a reporter what can be done to every one. -/
def call {ρ : Type} [Reporter ρ] (r : ρ) : Call → Except Demand (Answer × ρ)
  | .report d => .ok (.nothing, report r d)
  | .errorAt line location message => .ok (.nothing, errorAt r line location message)
  | .error line message => .ok (.nothing, error r line message)
  | .lex source => do
    let told ← Sweep.lex source.toList r
    return (.tokens told.tokens.toList, told.reporter)
  | .reset => .ok (.nothing, reset r)

end Reporter

-- ── Queues ──────────────────────────

namespace Queue

/-- What can be done to a queue. -/
inductive Operation
  /-- Does what can be done to every reporter. -/
  | call (c : Reporter.Call)
  /-- Looks at what it has kept. -/
  | peek
  /-- Takes what it has kept out of it. -/
  | flush
deriving DecidableEq

/-- Does an operation. -/
def step (q : Queue) : Operation → Except Demand (Answer × Queue)
  | .call c => Reporter.call q c
  | .peek => .ok (.diagnostics q.toList, q)
  | .flush => .ok (.diagnostics q.flush.1, q.flush.2)

end Queue

-- ── Emitters ────────────────────────

namespace Emitter

/-- What can be done to an emitter. -/
inductive Operation
  /-- Does what can be done to every reporter. -/
  | call (c : Reporter.Call)
  /-- Says how many errors are not shown. -/
  | noteSuppressed (count : Nat)
  /-- Flushes what it writes to. -/
  | flush
deriving DecidableEq

/-- Does an operation. -/
def step {ω : Type} [Writer ω] (e : Emitter ω) :
    Operation → Except Demand (Answer × Emitter ω)
  | .call c => Reporter.call e c
  | .noteSuppressed count => .ok (.nothing, e.noteSuppressed count)
  | .flush => .ok (.nothing, e.flush)

end Emitter

-- ── Rows of operations ──────────────

section StepAll

variable {σ ο : Type} {step : σ → ο → Except Demand (Answer × σ)} {s last next : σ}
    {ops : List ο}
  {op : ο} {answers : List Answer} {answer : Answer}

/-- The last operation is done after all others. -/
theorem stepAll_concat (before : stepAll step s ops = .ok (answers, last))
    (done : step last op = .ok (answer, next)) :
    stepAll step s (ops ++ [op]) = .ok (answers ++ [answer], next) := by
  induction ops generalizing s answers with
  | nil =>
      cases before
      rw [List.nil_append, stepAll, done]
      rfl
  | cons first ops ih =>
      obtain ⟨⟨one, between⟩, start, before⟩ := Sweep.exists_of_bind_eq_ok before
      obtain ⟨⟨others, final⟩, later, before⟩ := Sweep.exists_of_bind_eq_ok before
      cases before
      rw [List.cons_append, stepAll, start]
      show (stepAll step between (ops ++ [op]) >>= _) = _
      rw [ih later]
      rfl

end StepAll

end LoxScan
