import LoxScan.Run.Plan

/-!
# What streams take

A sink takes some bytes and some flushes if there is room for the bytes and none of the flushes
fails. An output that takes what actions write to it is no hindrance to them: every action is
performed, and what a stream holds in the end is what the actions write to it, one after another. So
a run on streams that do not fail is told by its actions alone: the bytes that each adds to the
output and to the error stream, and the flushes.

* **`takes_append`**: what is taken in two parts is taken together.
* **`performAll_of_takes`**: if the output takes what they write, all actions are performed, and
  each adds what it adds.
* **`performAll_of_unfailing`**: streams that do not fail take everything.
-/

namespace LoxScan

open Utf8

-- ── What an action adds ─────────────

namespace Action

/-- The bytes that an action adds to the output. -/
@[simp] def output : Action → List UInt8
  | print text => encode text.toList
  | _ => []

/-- The bytes that an action adds to the error stream. An event adds its line, if the log shows
it. -/
@[simp] def warning (line? : Event → Option String) : Action → List UInt8
  | warn text => encode text.toList
  | log event =>
    match line? event with
    | some line => encode line.toList
    | none => []
  | _ => []

/-- What an action adds to the log. -/
@[simp] def logged : Action → List Event
  | log event => [event]
  | _ => []

end Action

-- ── Sinks and consoles ──────────────

/-- A sink after some more bytes and flushes. -/
def Sink.grown (s : Sink) (bytes : List UInt8) (flushes : Nat) : Sink :=
  { s with written := s.written ++ bytes.toArray, flushes := s.flushes + flushes }

namespace Sink

variable {s : Sink} {a b : List UInt8} {m n : Nat}

@[simp] theorem toList_grown (s : Sink) (bytes : List UInt8) (flushes : Nat) :
    (s.grown bytes flushes).toList = s.toList ++ bytes := by
  simp [grown, toList]

@[simp] theorem flushes_grown (s : Sink) (bytes : List UInt8) (flushes : Nat) :
    (s.grown bytes flushes).flushes = s.flushes + flushes :=
  rfl

@[simp] theorem size_grown (s : Sink) (bytes : List UInt8) (flushes : Nat) :
    (s.grown bytes flushes).written.size = s.written.size + bytes.length := by
  simp [grown]

@[simp] theorem grown_nil_zero (s : Sink) : s.grown [] 0 = s := by
  simp [grown]

theorem grown_grown (s : Sink) (a b : List UInt8) (m n : Nat) :
    (s.grown a m).grown b n = s.grown (a ++ b) (m + n) := by
  simp [grown, Nat.add_assoc]

/-- There is room for some more bytes. -/
def Fits (s : Sink) (bytes : List UInt8) : Prop :=
  ∀ room, s.capacity = some room → bytes.length ≤ room - s.written.size

/-- None of so many next flushes fails. -/
def Flushes (s : Sink) (count : Nat) : Prop :=
  ∀ k, s.failingFlush = some k → ¬ (s.flushes < k ∧ k ≤ s.flushes + count)

/-- There is room for some bytes, and none of some flushes fails. -/
structure Takes (s : Sink) (bytes : List UInt8) (flushes : Nat) : Prop where
  fits : s.Fits bytes
  flushes : s.Flushes flushes

theorem fits_nil (s : Sink) : s.Fits [] := by
  intro room _
  exact Nat.zero_le _

theorem flushes_zero (s : Sink) : s.Flushes 0 := by
  intro k _ within
  omega

theorem fits_append : s.Fits (a ++ b) ↔ s.Fits a ∧ (s.grown a m).Fits b := by
  constructor
  · intro whole
    refine ⟨?_, ?_⟩
    · intro room limited
      have bound := whole room limited
      rw [List.length_append] at bound
      omega
    · intro room limited
      have bound := whole room limited
      rw [List.length_append] at bound
      rw [size_grown]
      omega
  · rintro ⟨first, second⟩ room limited
    have bound := first room limited
    have later := second room limited
    rw [size_grown] at later
    rw [List.length_append]
    omega

theorem flushes_add : s.Flushes (m + n) ↔ s.Flushes m ∧ (s.grown a m).Flushes n := by
  constructor
  · intro whole
    refine ⟨?_, ?_⟩
    · intro k failing within
      have sound := whole k failing
      omega
    · intro k failing within
      have sound := whole k failing
      rw [flushes_grown] at within
      omega
  · rintro ⟨first, second⟩ k failing within
    have early := first k failing
    have late := second k failing
    rw [flushes_grown] at late
    omega

/-- What is taken in two parts is taken together. -/
theorem takes_append : s.Takes (a ++ b) (m + n) ↔ s.Takes a m ∧ (s.grown a m).Takes b n := by
  constructor
  · rintro ⟨fits, flushes⟩
    obtain ⟨first, second⟩ := fits_append.1 fits
    obtain ⟨early, late⟩ := flushes_add.1 flushes
    exact ⟨⟨first, early⟩, second, late⟩
  · rintro ⟨⟨first, early⟩, second, late⟩
    exact ⟨fits_append.2 ⟨first, second⟩, flushes_add.2 ⟨early, late⟩⟩

/-- Where there is room a write adds its bytes. -/
theorem Fits.write {text : String} (h : s.Fits (encode text.toList)) :
    s.write text = (s.grown (encode text.toList) 0, none) := by
  have all : s.fitting (encode text.toList) = encode text.toList := by
    rw [fitting]
    split
    case h_1 => rfl
    case h_2 room limited => exact List.take_of_length_le (h room limited)
  rw [Sink.write, all, if_neg (Nat.lt_irrefl _)]
  rfl

/-- Where there is no room for all of them, a write adds those of its bytes for which there is, and
fails. -/
theorem write_of_not_fits {text : String} (h : ¬ s.Fits (encode text.toList)) :
    ∃ room, s.capacity = some room ∧ room - s.written.size < (encode text.toList).length ∧
      s.write text =
        (s.grown ((encode text.toList).take (room - s.written.size)) 0, some .sinkFull) := by
  obtain ⟨room, h⟩ := Classical.not_forall.1 h
  obtain ⟨limited, beyond⟩ := Classical.not_imp.1 h
  refine ⟨room, limited, Nat.not_le.1 beyond, ?_⟩
  have cut :
      s.fitting (encode text.toList) = (encode text.toList).take (room - s.written.size) := by
    rw [fitting, limited]
  rw [Sink.write, cut, if_pos (by rw [List.length_take]; omega)]
  rfl

theorem Flushes.flush (h : s.Flushes 1) : s.flush = (s.grown [] 1, none) := by
  have sound : s.failingFlush ≠ some (s.flushes + 1) := by
    intro failing
    exact h _ failing ⟨Nat.lt_succ_self _, Nat.le_refl _⟩
  rw [Sink.flush, if_neg sound]
  simp [grown]

theorem flush_of_not_flushes (h : ¬ s.Flushes 1) :
    s.flush = (s.grown [] 1, some .flushFailed) := by
  have failing : s.failingFlush = some (s.flushes + 1) := by
    obtain ⟨k, h⟩ := Classical.not_forall.1 h
    obtain ⟨failing, within⟩ := Classical.not_imp.1 h
    rw [failing]
    exact congrArg some (by omega)
  rw [Sink.flush, if_pos failing]
  simp [grown]

/-- A sink with room for everything, of which no flush fails. -/
structure Unfailing (s : Sink) : Prop where
  capacity : s.capacity = none
  failingFlush : s.failingFlush = none

theorem Unfailing.grown (h : s.Unfailing) (bytes : List UInt8) (flushes : Nat) :
    (s.grown bytes flushes).Unfailing :=
  ⟨h.capacity, h.failingFlush⟩

/-- A sink that does not fail takes everything. -/
theorem Unfailing.takes (h : s.Unfailing) (bytes : List UInt8) (flushes : Nat) :
    s.Takes bytes flushes := by
  refine ⟨?_, ?_⟩
  · intro room limited
    rw [h.capacity] at limited
    exact nomatch limited
  · intro k failing
    rw [h.failingFlush] at failing
    exact nomatch failing

theorem Unfailing.write (h : s.Unfailing) (text : String) :
    s.write text = (s.grown (encode text.toList) 0, none) :=
  (h.takes (encode text.toList) 0).fits.write

theorem Unfailing.flush (h : s.Unfailing) : s.flush = (s.grown [] 1, none) :=
  (h.takes [] 1).flushes.flush

end Sink

/-- A console of which neither stream fails. -/
structure Console.Unfailing (c : Console) : Prop where
  out : c.out.Unfailing
  err : c.err.Unfailing

/-- The console after actions that were all performed. -/
def Console.after (c : Console) (actions : List Action) : Console :=
  { out := c.out.grown (actions.flatMap Action.output) (actions.count .flush)
    err := c.err.grown (actions.flatMap (Action.warning c.line?)) (actions.count .flushWarnings)
    line? := c.line?
    events := c.events ++ (actions.flatMap Action.logged).toArray }

namespace Console

variable {c : Console}

/-- Streams without limits do not fail. -/
theorem unfailing_default : ({} : Console).Unfailing :=
  ⟨⟨rfl, rfl⟩, ⟨rfl, rfl⟩⟩

theorem toList_out_after (c : Console) (actions : List Action) :
    (c.after actions).out.toList = c.out.toList ++ actions.flatMap Action.output :=
  Sink.toList_grown ..

theorem toList_err_after (c : Console) (actions : List Action) :
    (c.after actions).err.toList = c.err.toList ++ actions.flatMap (Action.warning c.line?) :=
  Sink.toList_grown ..

@[simp] theorem after_nil (c : Console) : c.after [] = c := by
  simp [Console.after]

theorem after_append (c : Console) (a b : List Action) :
    c.after (a ++ b) = (c.after a).after b := by
  simp [Console.after, Sink.grown_grown, List.count_append]

/-- What an output takes an action writes to it. -/
theorem perform_of_takes (unfailing : c.err.Unfailing) {action : Action}
    (h : c.out.Takes action.output ([action].count .flush)) :
    c.perform action = (c.after [action], none) := by
  cases action with
  | print text => simp [perform, h.fits.write, after]
  | flush => simp [perform, Sink.Flushes.flush h.flushes, after]
  | warn text => simp [perform, Writer.write, unfailing.write, after]
  | flushWarnings => simp [perform, Writer.flush, unfailing.flush, after]
  | log event =>
      rw [perform, record, after]
      split
      case h_1 line shown => simp [Writer.write, unfailing.write, shown]
      case h_2 hidden => simp [hidden]

/-- **All actions.** If the output takes what they write to it, all of them are performed. -/
theorem performAll_of_takes (unfailing : c.err.Unfailing) {actions : List Action}
    (h : c.out.Takes (actions.flatMap Action.output) (actions.count .flush)) :
    c.performAll actions = (c.after actions, none) := by
  induction actions generalizing c with
  | nil => rw [performAll_nil, after_nil]
  | cons action actions ih =>
      rw [← List.singleton_append, List.flatMap_append, List.count_append, Sink.takes_append,
        List.flatMap_singleton] at h
      rw [performAll, perform_of_takes unfailing h.1]
      show (c.after [action]).performAll actions = _
      rw [ih (unfailing.grown _ _) (by simpa [after] using h.2), ← after_append]
      rfl

/-- On streams that do not fail all actions are performed. -/
theorem performAll_of_unfailing (h : c.Unfailing) (actions : List Action) :
    c.performAll actions = (c.after actions, none) :=
  performAll_of_takes h.err (h.out.takes _ _)

end Console

theorem Plan.perform_of_unfailing {α : Type} {c : Console} (h : c.Unfailing) (plan : Plan α) :
    plan.perform c = (c.after plan.actions, plan.outcome) := by
  rw [perform, Console.performAll_of_unfailing h]

/-- A log that shows nothing leaves the error stream alone. -/
theorem Action.warning_log_none (event : Event) : (log event).warning (fun _ => none) = [] :=
  rfl

end LoxScan
