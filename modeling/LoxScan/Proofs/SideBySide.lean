import LoxScan.Proofs.ReporterHistory
import LoxScan.Proofs.Streams

/-!
# Side by side

Two writers to which the same is written are related in some way, and the relation may be one that
writing and flushing keep. Then so does everything that is built from the two. Two emitters that
differ in their writers only go on to do so, and stay related, through all operations; and so do two
consoles that differ in their error streams only, through all actions. What the relation says
changes from one use to the next, and what is proved here of it does not.

* **`keeps_clips`**: a sink with room for some bytes only holds the first of those that one with
  room for all holds, and goes on to do so.
* **`stepAll_beside`**: two emitters count the same and give back the same, whatever they write to.
* **`performAll_beside`**: two consoles fail at the same action or not at all.
-/

namespace LoxScan

open Utf8

-- ── Writers side by side ────────────

namespace Writer

variable {ω₁ ω₂ : Type} [Writer ω₁] [Writer ω₂] {R : ω₁ → ω₂ → Prop}

/-- A relation of two writers is kept if it still holds after the same was done to both. -/
structure Keeps (R : ω₁ → ω₂ → Prop) : Prop where
  write : ∀ {a b} (text : String), R a b → R (write a text) (write b text)
  flush : ∀ {a b}, R a b → R (flush a) (flush b)

theorem Keeps.writeAll (kept : Keeps R) (texts : List String) {a : ω₁} {b : ω₂} (h : R a b) :
    R (writeAll a texts) (writeAll b texts) := by
  induction texts generalizing a b with
  | nil => exact h
  | cons text texts ih => exact ih (kept.write text h)

/-- Any two writers have something to do with each other, if one does not ask what. -/
theorem keeps_true : Keeps fun (_ : ω₁) (_ : ω₂) => True :=
  ⟨fun _ _ => trivial, fun _ => trivial⟩

end Writer

/-- A sink with room for so many bytes, beside one with room for all, holds the first that the other
holds. -/
structure Sink.Clips (n : Nat) (s t : Sink) : Prop where
  limited : s.capacity = some n
  unlimited : t.capacity = none
  held : s.toList = t.toList.take n

/-- A sink that is full stays so: nothing that is written later comes after the cut. -/
theorem Sink.keeps_clips (n : Nat) : Writer.Keeps (Sink.Clips n) := by
  refine ⟨?_, ?_⟩
  · intro s t text ⟨limited, unlimited, held⟩
    refine ⟨limited, unlimited, ?_⟩
    have room : n - s.written.size = n - t.toList.length := by
      have size := congrArg List.length held
      rw [List.length_take] at size
      have stored : s.toList.length = s.written.size := Array.length_toList
      omega
    have first :
        s.fitting (encode text.toList) = (encode text.toList).take (n - t.toList.length) := by
      rw [fitting, limited, ← room]
    have all : t.fitting (encode text.toList) = encode text.toList := by
      rw [fitting, unlimited]
    show (s.write text).1.toList = (t.write text).1.toList.take n
    rw [toList_write, toList_write, first, all, List.take_append, held]
  · intro s t ⟨limited, unlimited, held⟩
    exact ⟨limited, unlimited, held⟩

-- ── Emitters side by side ───────────

namespace Emitter

namespace Operation

/-- What an operation reports. -/
def reports : Operation → List Diagnostic
  | call c => c.reports
  | _ => []

/-- Whether an operation resets the emitter. -/
def resets : Operation → Bool
  | call c => c.resets
  | _ => false

/-- What an operation gives back. -/
def answer : Operation → Answer
  | call c => c.answer
  | _ => .nothing

end Operation

/-- What was reported since the emitter was last reset. -/
def history (ops : List Operation) : List Diagnostic :=
  reportsSince Operation.resets Operation.reports ops

section Next

variable {ω : Type} [Writer ω]

/-- The emitter after an operation. -/
def next (e : Emitter ω) : Operation → Emitter ω
  | .call c => if c.resets then e.reset else Reporter.reportAll e c.reports
  | .noteSuppressed count => e.noteSuppressed count
  | .flush => e.flush

/-- Every operation comes to its end, and what it gives back does not depend on the emitter. -/
theorem step_eq (e : Emitter ω) (op : Operation) : e.step op = .ok (op.answer, e.next op) := by
  cases op with
  | call c => exact Reporter.call_eq e c
  | noteSuppressed count => rfl
  | flush => rfl

/-- An operation starts the count again, or adds what it reports to it. -/
theorem errorCount_next (e : Emitter ω) (op : Operation) :
    (e.next op).errorCount = if op.resets then 0 else e.errorCount + op.reports.length := by
  cases op with
  | call c =>
      show (if c.resets then e.reset else Reporter.reportAll e c.reports).errorCount =
        if c.resets then 0 else e.errorCount + c.reports.length
      split
      case isTrue => rfl
      case isFalse => exact Reporter.errorCount_reportAll e c.reports
  | noteSuppressed count => rfl
  | flush => rfl

end Next

variable {ω₁ ω₂ : Type} [Writer ω₁] [Writer ω₂] {R : ω₁ → ω₂ → Prop}

/-- Two emitters that differ in their writers only, which are related. -/
structure Beside (R : ω₁ → ω₂ → Prop) (e₁ : Emitter ω₁)
    (e₂ : Emitter ω₂) : Prop where
  writers : R e₁.writer e₂.writer
  colored : e₁.colored = e₂.colored
  errorCount : e₁.errorCount = e₂.errorCount

namespace Beside

variable {e₁ : Emitter ω₁} {e₂ : Emitter ω₂}

theorem report (kept : Writer.Keeps R) (h : Beside R e₁ e₂) (d : Diagnostic) :
    Beside R (e₁.report d) (e₂.report d) := by
  refine ⟨?_, h.colored, congrArg (· + 1) h.errorCount⟩
  show R (Writer.writeAll e₁.writer (pieces e₁.colored d))
    (Writer.writeAll e₂.writer (pieces e₂.colored d))
  rw [h.colored]
  exact kept.writeAll _ h.writers

theorem reportAll (kept : Writer.Keeps R) (ds : List Diagnostic) (h : Beside R e₁ e₂) :
    Beside R (Reporter.reportAll e₁ ds) (Reporter.reportAll e₂ ds) := by
  induction ds generalizing e₁ e₂ with
  | nil => exact h
  | cons d ds ih => exact ih (h.report kept d)

theorem noteSuppressed (kept : Writer.Keeps R) (h : Beside R e₁ e₂) (count : Nat) :
    Beside R (e₁.noteSuppressed count) (e₂.noteSuppressed count) := by
  refine ⟨?_, h.colored, h.errorCount⟩
  show R (Writer.writeAll e₁.writer (notePieces e₁.colored count))
    (Writer.writeAll e₂.writer (notePieces e₂.colored count))
  rw [h.colored]
  exact kept.writeAll _ h.writers

theorem flush (kept : Writer.Keeps R) (h : Beside R e₁ e₂) : Beside R e₁.flush e₂.flush :=
  ⟨kept.flush h.writers, h.colored, h.errorCount⟩

/-- **One operation.** It keeps two emitters beside each other. -/
theorem next (kept : Writer.Keeps R) (h : Beside R e₁ e₂) (op : Operation) :
    Beside R (e₁.next op) (e₂.next op) := by
  cases op with
  | call c =>
      show Beside R (if c.resets then e₁.reset else _) (if c.resets then e₂.reset else _)
      by_cases resets : c.resets = true
      · rw [if_pos resets, if_pos resets]
        exact ⟨h.writers, h.colored, rfl⟩
      · rw [if_neg resets, if_neg resets]
        exact h.reportAll kept c.reports
  | noteSuppressed count => exact h.noteSuppressed kept count
  | flush => exact h.flush kept

end Beside

/-- **Any operations.** They all come to their end, give back the same, and count what was reported
since the last reset. -/
theorem stepAll_beside (kept : Writer.Keeps R) (w₁ : ω₁) (w₂ : ω₂) (h : R w₁ w₂)
    (colored : Bool) (ops : List Operation) :
    ∃ answers e₁ e₂, stepAll step { writer := w₁, colored } ops = .ok (answers, e₁) ∧
      stepAll step { writer := w₂, colored } ops = .ok (answers, e₂) ∧ Beside R e₁ e₂ ∧
      e₁.errorCount = (history ops).length := by
  induction ops using List.reverseRecOn with
  | nil => exact ⟨[], _, _, rfl, rfl, ⟨h, rfl, rfl⟩, rfl⟩
  | append_singleton ops op ih =>
      obtain ⟨answers, e₁, e₂, first, second, beside, count⟩ := ih
      refine ⟨answers ++ [op.answer], e₁.next op, e₂.next op, ?_, ?_,
        beside.next kept op, ?_⟩
      · exact stepAll_concat first (e₁.step_eq op)
      · exact stepAll_concat second (e₂.step_eq op)
      · rw [errorCount_next, count, history, history, reportsSince_concat]
        split
        case isTrue => rfl
        case isFalse => exact List.length_append.symm

end Emitter

-- ── Consoles side by side ───────────

namespace Console

variable {R : Sink → Sink → Prop} {a b : Console}

/-- Two consoles that differ in their error streams only, which are related. -/
structure Beside (R : Sink → Sink → Prop) (a b : Console) : Prop where
  errs : R a.err b.err
  out : a.out = b.out
  line? : a.line? = b.line?
  events : a.events = b.events

/-- An event is recorded beside the same event. -/
theorem Beside.record (kept : Writer.Keeps R) (h : Beside R a b) (event : Event) :
    Beside R (a.record event) (b.record event) := by
  have events : a.events.push event = b.events.push event := by rw [h.events]
  rw [Console.record, Console.record, h.line?]
  split
  case h_1 line shown => exact ⟨kept.write line h.errs, h.out, rfl, events⟩
  case h_2 hidden => exact ⟨h.errs, h.out, rfl, events⟩

/-- **One action.** It succeeds on both of two consoles beside each other or on neither, and leaves
them so. -/
theorem perform_beside (kept : Writer.Keeps R) (h : Beside R a b) (action : Action) :
    (a.perform action).2 = (b.perform action).2 ∧
      Beside R (a.perform action).1 (b.perform action).1 := by
  cases action with
  | print text =>
      refine ⟨?_, h.errs, ?_, h.line?, h.events⟩
      · show (a.out.write text).2 = (b.out.write text).2
        rw [h.out]
      · show (a.out.write text).1 = (b.out.write text).1
        rw [h.out]
  | flush =>
      refine ⟨?_, h.errs, ?_, h.line?, h.events⟩
      · show a.out.flush.2 = b.out.flush.2
        rw [h.out]
      · show a.out.flush.1 = b.out.flush.1
        rw [h.out]
  | warn text => exact ⟨rfl, kept.write text h.errs, h.out, h.line?, h.events⟩
  | flushWarnings => exact ⟨rfl, kept.flush h.errs, h.out, h.line?, h.events⟩
  | log event => exact ⟨rfl, h.record kept event⟩

/-- **All actions.** They fail on both of two consoles beside each other or on neither, for the same
reason, and leave them so. -/
theorem performAll_beside (kept : Writer.Keeps R) (h : Beside R a b) (actions : List Action) :
    (a.performAll actions).2 = (b.performAll actions).2 ∧
      Beside R (a.performAll actions).1 (b.performAll actions).1 := by
  induction actions generalizing a b with
  | nil => exact ⟨rfl, h⟩
  | cons action actions ih =>
      obtain ⟨failure, beside⟩ := perform_beside kept h action
      rw [performAll, performAll]
      cases first : a.perform action with
      | mk next₁ failure₁ =>
          cases second : b.perform action with
          | mk next₂ failure₂ =>
              rw [first, second] at failure beside
              obtain rfl : failure₁ = failure₂ := failure
              cases failure₁ with
              | none => exact ih beside
              | some cause => exact ⟨rfl, beside⟩

end Console

/-- A plan comes to the same on two consoles beside each other. -/
theorem Plan.perform_beside {α : Type} {R : Sink → Sink → Prop} (kept : Writer.Keeps R)
    {a b : Console}
    (h : Console.Beside R a b) (plan : Plan α) :
    (plan.perform a).2 = (plan.perform b).2 ∧
      Console.Beside R (plan.perform a).1 (plan.perform b).1 := by
  obtain ⟨failure, beside⟩ := Console.performAll_beside kept h plan.actions
  rw [perform, perform]
  cases first : a.performAll plan.actions with
  | mk next₁ failure₁ =>
      cases second : b.performAll plan.actions with
      | mk next₂ failure₂ =>
          rw [first, second] at failure beside
          obtain rfl : failure₁ = failure₂ := failure
          cases failure₁ with
          | none => exact ⟨rfl, beside⟩
          | some cause => exact ⟨rfl, beside⟩

end LoxScan
