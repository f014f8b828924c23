import LoxScan.Log.Event
import LoxScan.Output.Writer
import LoxScan.Run.Failure

/-!
# Plans and consoles

What a run does to the world is a list of actions, written down before any of them is performed:
text to the output, text to the error stream, flushes of both, and events to the log. Nothing that a
run does depends on how an earlier action went, except that the first action on the output that
fails ends it. So a plan is a list of actions and the outcome if all of them succeed, and performing
it is one fold.

A console is what a plan is performed on: two sinks, the events so far, and what a log writes of an
event on the error stream, if it shows that. Failures of the error stream are passed over.

* **`performAll_append`**: a list of actions can be performed in parts, the later part only if the
  earlier one does not fail.
* **`perform_error_free`**: only printing and flushing the output can fail.
-/

namespace LoxScan

-- ── Actions ─────────────────────────

/-- One thing that a run does. -/
inductive Action
  /-- Writes to the output. -/
  | print (text : String)
  /-- Flushes the output. -/
  | flush
  /-- Writes to the error stream. -/
  | warn (text : String)
  /-- Flushes the error stream. -/
  | flushWarnings
  /-- Logs an event. -/
  | log (event : Event)
deriving DecidableEq

/-- A list of actions is a writer to the error stream that writes later. -/
instance : Writer (Array Action) where
  write actions text := actions.push (.warn text)
  flush actions := actions.push .flushWarnings

/-- Actions, and the outcome if none of them fails. -/
structure Plan (α : Type) where
  actions : List Action
  outcome : Except Failure α

-- ── Consoles ────────────────────────

/-- The streams and the log of a run. Unless something else is given, the log shows nothing. -/
structure Console where
  out : Sink := {}
  err : Sink := {}
  line? : Event → Option String := fun _ => none
  events : Array Event := #[]

namespace Console

/-- The console after an event: it is recorded, and written to the error stream if the log shows
it. -/
def record (c : Console) (event : Event) : Console :=
  match c.line? event with
  | some line => { c with events := c.events.push event, err := Writer.write c.err line }
  | none => { c with events := c.events.push event }

/-- Performs an action. -/
def perform (c : Console) : Action → Console × Option StreamError
  | .print text => ({ c with out := (c.out.write text).1 }, (c.out.write text).2)
  | .flush => ({ c with out := c.out.flush.1 }, c.out.flush.2)
  | .warn text => ({ c with err := Writer.write c.err text }, none)
  | .flushWarnings => ({ c with err := Writer.flush c.err }, none)
  | .log event => (c.record event, none)

/-- Performs actions in order up to the first one that fails. -/
def performAll (c : Console) : List Action → Console × Option StreamError
  | [] => (c, none)
  | action :: rest =>
    match c.perform action with
    | (next, none) => performAll next rest
    | (next, some failure) => (next, some failure)

@[simp] theorem performAll_nil (c : Console) : c.performAll [] = (c, none) :=
  rfl

/-- Actions can be performed in parts, the later part only if the earlier one does not fail. -/
theorem performAll_append (c : Console) (a b : List Action) :
    c.performAll (a ++ b) =
      match c.performAll a with
      | (next, none) => next.performAll b
      | (next, some failure) => (next, some failure) := by
  induction a generalizing c with
  | nil => rfl
  | cons action a ih =>
      simp only [List.cons_append, performAll]
      split
      case h_1 next _ => exact ih next
      case h_2 => rfl

/-- Only printing and flushing the output can fail. -/
theorem perform_error_free (c : Console) (action : Action)
    (h : ∀ text, action ≠ .print text) (hf : action ≠ .flush) :
    (c.perform action).2 = none := by
  cases action with
  | print text => exact absurd rfl (h text)
  | flush => exact absurd rfl hf
  | warn text => rfl
  | flushWarnings => rfl
  | log event => rfl

end Console

namespace Plan

variable {α : Type}

/-- Performs a plan. An action that fails replaces the outcome. -/
def perform (plan : Plan α) (c : Console) : Console × Except Failure α :=
  match c.performAll plan.actions with
  | (next, none) => (next, plan.outcome)
  | (next, some failure) => (next, .error (.stream failure))

/-- Performs a plan on an output, the error stream taking everything. -/
def onto (plan : Plan α) (out : Sink) : Console × Except Failure α :=
  plan.perform { out }

/-- What a plan prints on an output that does not fail. -/
def printed (plan : Plan α) : List UInt8 :=
  (plan.onto {}).1.out.toList

end Plan

end LoxScan
