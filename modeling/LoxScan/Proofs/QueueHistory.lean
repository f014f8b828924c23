import LoxScan.Diagnostic.Queue

/-!
# Queues by their history

A queue is filled by reports one at a time, and each is kept or dropped by what the queue holds
then. What it holds in the end needs no account of the way: it is determined by the limit and the
row of all reports since the queue was empty. The first of them are kept, up to the limit, and the
others are only counted.

* **`report_holding`**: one report more.
* **`reportAll_withLimit`**: so reports made to an empty queue leave it with them as its history.
* **`flush_holding`**: a history in order of position is handed over as it is.
-/

namespace LoxScan.Queue

-- ── The queue of a history ──────────

/-- Those of some reports that are kept under a limit. A limit of zero is no limit. -/
def within (limit : Nat) (reports : List Diagnostic) : List Diagnostic :=
  if limit = 0 then reports else reports.take limit

/-- The queue with a limit and a history of reports. -/
def holding (limit : Nat) (reports : List Diagnostic) : Queue where
  limit
  kept := (within limit reports).toArray
  suppressed := reports.length - (within limit reports).length

variable {limit : Nat} {reports : List Diagnostic}

@[simp] theorem within_zero (reports : List Diagnostic) : within 0 reports = reports :=
  rfl

theorem isPrefix_within (limit : Nat) (reports : List Diagnostic) :
    within limit reports <+: reports := by
  rw [within]
  split
  case isTrue => exact List.prefix_rfl
  case isFalse => exact List.take_prefix limit reports

/-- A history within the limit is kept as a whole. -/
theorem within_of_le (h : limit = 0 ∨ reports.length ≤ limit) :
    within limit reports = reports := by
  rw [within]
  split
  case isTrue => rfl
  case isFalse limited =>
    rcases h with unlimited | fits
    · exact absurd unlimited limited
    · exact List.take_of_length_le fits

theorem within_of_lt (limited : 0 < limit) : within limit reports = reports.take limit :=
  if_neg (Nat.pos_iff_ne_zero.1 limited)

@[simp] theorem toList_holding (limit : Nat) (reports : List Diagnostic) :
    (holding limit reports).toList = within limit reports :=
  rfl

@[simp] theorem holding_nil (limit : Nat) : holding limit [] = withLimit limit := by
  simp [holding, within, withLimit]

-- ── Reports ─────────────────────────

theorem limitReached_holding (limit : Nat) (reports : List Diagnostic) :
    (holding limit reports).limitReached = true ↔ 0 < limit ∧ limit ≤ reports.length := by
  rw [limitReached_iff, toList_holding]
  show 0 < limit ∧ limit ≤ _ ↔ _
  constructor
  · rintro ⟨limited, full⟩
    exact ⟨limited, Nat.le_trans full (isPrefix_within limit reports).length_le⟩
  · rintro ⟨limited, full⟩
    rw [within_of_lt limited, List.length_take]
    exact ⟨limited, by omega⟩

/-- **One report more.** It joins the history. -/
theorem report_holding (limit : Nat) (reports : List Diagnostic) (d : Diagnostic) :
    (holding limit reports).report d = holding limit (reports ++ [d]) := by
  have few := (isPrefix_within limit reports).length_le
  rw [report]
  split
  case isTrue full =>
    obtain ⟨limited, full⟩ := (limitReached_holding limit reports).1 full
    have kept : within limit (reports ++ [d]) = within limit reports := by
      rw [within_of_lt limited, within_of_lt limited, List.take_append_of_le_length full]
    rw [holding, holding, kept, List.length_append, List.length_singleton, Nat.sub_add_comm few]
  case isFalse free =>
    rw [limitReached_holding] at free
    have kept : within limit (reports ++ [d]) = within limit reports ++ [d] := by
      have short : limit = 0 ∨ (reports ++ [d]).length ≤ limit := by
        rw [List.length_append, List.length_singleton]
        omega
      rw [within_of_le short, within_of_le (by omega)]
    rw [holding, holding, kept, List.length_append, List.length_append, List.length_singleton,
      Nat.add_sub_add_right, List.push_toArray]

theorem reportAll_holding (limit : Nat) (reports ds : List Diagnostic) :
    Reporter.reportAll (holding limit reports) ds = holding limit (reports ++ ds) := by
  induction ds generalizing reports with
  | nil => rw [Reporter.reportAll_nil, List.append_nil]
  | cons d ds ih =>
      rw [Reporter.reportAll_cons]
      show Reporter.reportAll ((holding limit reports).report d) ds = _
      rw [report_holding, ih, List.append_assoc]
      rfl

/-- **Reports to an empty queue** are its history. -/
theorem reportAll_withLimit (limit : Nat) (ds : List Diagnostic) :
    Reporter.reportAll (withLimit limit) ds = holding limit ds := by
  rw [← holding_nil, reportAll_holding, List.nil_append]

-- ── Counts and flushes ──────────────

/-- Reports that a limit does not reach are all kept, and nothing is left to count. -/
theorem holding_of_le (fits : limit = 0 ∨ reports.length ≤ limit) :
    within limit reports = reports ∧ (holding limit reports).suppressed = 0 := by
  have kept := within_of_le fits
  refine ⟨kept, ?_⟩
  show reports.length - (within limit reports).length = 0
  rw [kept, Nat.sub_self]

/-- Of more reports than a limit the first are kept, and the others are counted. -/
theorem holding_of_lt (beyond : ¬ (limit = 0 ∨ reports.length ≤ limit)) :
    within limit reports = reports.take limit ∧
      (holding limit reports).suppressed = reports.length - limit := by
  have kept : within limit reports = reports.take limit := within_of_lt (by omega)
  refine ⟨kept, ?_⟩
  show reports.length - (within limit reports).length = _
  rw [kept, List.length_take]
  omega

/-- Every report of the history counts. -/
@[simp] theorem errorCount_holding (limit : Nat) (reports : List Diagnostic) :
    (holding limit reports).errorCount = reports.length := by
  have few := (isPrefix_within limit reports).length_le
  show (within limit reports).length + (reports.length - (within limit reports).length) = _
  omega

@[simp] theorem reset_holding (limit : Nat) (reports : List Diagnostic) :
    (holding limit reports).reset = withLimit limit :=
  rfl

/-- What is handed over is what was kept. -/
theorem mem_flush {q : Queue} {d : Diagnostic} : d ∈ q.flush.1 ↔ d ∈ q.toList := by
  rw [flush_eq_mergeSort]
  exact List.mem_mergeSort

/-- A history in order of position is handed over as it is. -/
theorem flush_holding (ordered : reports.Pairwise (Diagnostic.positionLE · · = true)) :
    (holding limit reports).flush = (within limit reports, withLimit limit) := by
  rw [flush_eq_mergeSort, toList_holding,
    List.mergeSort_of_pairwise (ordered.sublist (isPrefix_within limit reports).sublist)]
  rfl

end LoxScan.Queue
