import LoxScan.Diagnostic.Reporter

/-!
# The diagnostic queue

A queue keeps diagnostics in the order in which they were reported, up to a limit; what comes after
the limit is reached is counted and dropped. A limit of zero is no limit. Flushing hands the kept
diagnostics over in order of position and empties the queue, so the limit applies afresh.

* **`errorCount_report`**: dropped reports count as errors like kept ones.
* **`toList_report`**: a report is kept, at the end, exactly if the limit was not reached before.
* **`flush_eq_mergeSort`**: a queue that is in order already is handed over as it is, and that is
  what sorting it would give. The order of equal positions is the order of the reports.
-/

namespace LoxScan

/-- Kept diagnostics, the number of dropped ones, and the limit. -/
structure Queue where
  limit : Nat := 0
  kept : Array Diagnostic := #[]
  suppressed : Nat := 0
deriving DecidableEq

/-- Whether every element is related to the one after it. -/
def inOrder {α : Type} (le : α → α → Bool) : List α → Bool
  | a :: b :: rest => le a b && inOrder le (b :: rest)
  | _ => true

namespace Queue

/-- An empty queue with a limit, zero for none. -/
def withLimit (limit : Nat) : Queue :=
  { limit }

/-- The kept diagnostics in report order. -/
def toList (q : Queue) : List Diagnostic :=
  q.kept.toList

/-- Whether the next report will be dropped. -/
def limitReached (q : Queue) : Bool :=
  decide (0 < q.limit) && decide (q.limit ≤ q.kept.size)

/-- Keeps a diagnostic, or counts it as dropped once the limit is reached. -/
def report (q : Queue) (d : Diagnostic) : Queue :=
  if q.limitReached then { q with suppressed := q.suppressed + 1 }
  else { q with kept := q.kept.push d }

/-- The number of reports, kept and dropped. -/
def errorCount (q : Queue) : Nat :=
  q.kept.size + q.suppressed

/-- The queue without its reports. -/
def reset (q : Queue) : Queue :=
  withLimit q.limit

instance : Reporter Queue :=
  ⟨report, errorCount, reset⟩

/-- The kept diagnostics by position, equal positions in report order. -/
def sorted (q : Queue) : List Diagnostic :=
  if inOrder Diagnostic.positionLE q.toList then q.toList
  else q.toList.mergeSort Diagnostic.positionLE

/-- Hands the kept diagnostics over by position and empties the queue. -/
def flush (q : Queue) : List Diagnostic × Queue :=
  (q.sorted, q.reset)

-- ── Reports and counts ──────────────

@[simp] theorem toList_withLimit (limit : Nat) : (withLimit limit).toList = [] :=
  rfl

@[simp] theorem toList_reset (q : Queue) : q.reset.toList = [] :=
  rfl

@[simp] theorem limit_reset (q : Queue) : q.reset.limit = q.limit :=
  rfl

/-- A limit is reached when there is one and as many diagnostics are kept. -/
theorem limitReached_iff (q : Queue) :
    q.limitReached = true ↔ 0 < q.limit ∧ q.limit ≤ q.toList.length := by
  simp [limitReached, toList]

@[simp] theorem limit_report (q : Queue) (d : Diagnostic) : (q.report d).limit = q.limit := by
  rw [report]
  split
  case isTrue => rfl
  case isFalse => rfl

/-- A report is kept at the end, or not at all once the limit is reached. -/
theorem toList_report (q : Queue) (d : Diagnostic) :
    (q.report d).toList = if q.limitReached then q.toList else q.toList ++ [d] := by
  rw [report]
  split
  case isTrue => rfl
  case isFalse => simp [toList]

theorem errorCount_report (q : Queue) (d : Diagnostic) :
    (q.report d).errorCount = q.errorCount + 1 := by
  unfold report errorCount
  split
  case isTrue => rfl
  case isFalse =>
      simp only [Array.size_push]
      omega

instance : LawfulReporter Queue where
  errorCount_report := errorCount_report
  errorCount_reset _ := rfl

end Queue

-- ── Flushing ────────────────────────

/-- In a list whose neighbours are in order, any two elements are. -/
theorem pairwise_of_inOrder {α : Type} (le : α → α → Bool)
    (trans : ∀ a b c, le a b = true → le b c = true → le a c = true) {l : List α}
    (h : inOrder le l = true) : l.Pairwise (le · · = true) := by
  fun_induction inOrder le l with
  | case1 a b rest ih =>
      rw [Bool.and_eq_true] at h
      have later := ih h.2
      refine List.pairwise_cons.2 ⟨?_, later⟩
      intro c hc
      rcases List.mem_cons.1 hc with rfl | hc
      · exact h.1
      · exact trans a b c h.1 (List.rel_of_pairwise_cons later hc)
  | case2 l hl =>
      match l, hl with
      | [], _ => exact List.Pairwise.nil
      | [a], _ => exact List.pairwise_singleton ..
      | a :: b :: rest, hl => exact (hl a b rest rfl).elim

namespace Queue

/-- The shortcut for a queue that is in order gives what sorting would give. -/
theorem sorted_eq_mergeSort (q : Queue) :
    q.sorted = q.toList.mergeSort Diagnostic.positionLE := by
  rw [sorted]
  split
  case isTrue h =>
      refine (List.mergeSort_of_pairwise ?_).symm
      exact pairwise_of_inOrder Diagnostic.positionLE (fun _ _ _ => Diagnostic.positionLE_trans) h
  case isFalse => rfl

/-- A flush sorts stably by position and leaves an empty queue with the same limit. -/
theorem flush_eq_mergeSort (q : Queue) :
    q.flush = (q.toList.mergeSort Diagnostic.positionLE, withLimit q.limit) := by
  rw [flush, sorted_eq_mergeSort]
  rfl

end Queue

end LoxScan
