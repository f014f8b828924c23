import LoxScan.Proofs.ReporterHistory
import Mathlib.Data.List.Sort
import Mathlib.Data.Prod.Lex

/-!
# A flush is a stable sort

A queue that is flushed hands over what it has kept in order of position, and what stands at one
position in the order of the reports. A list can be arranged like that in one way only. So nothing
depends on how the queue goes about it: looking at neighbours alone and sorting nothing where they
are in order, or sorting whatever it has kept, both hand over the same list.

What was kept need not come from one scan. Any row of operations may have filled the queue, with
scans whose lines start over and with reports that know no column, which counts as column zero.

* **`StableSort.unique`**: two stable sorts of a list are equal.
* **`stableSort_mergeSort`**: sorting what was kept is a stable sort by position.
* **`flush_stable`**: so a flush hands over the one stable sort of what was kept, after any
  operations.
-/

namespace LoxScan

-- ── Stable sorts ────────────────────

/-- A list that is another one sorted by a key: it has the same elements, their keys do not
decrease, and those with one key are in the order that they had. -/
structure StableSort {α κ : Type} [LinearOrder κ] (key : α → κ)
    (given sorted : List α) : Prop where
  permutation : sorted.Perm given
  ordered : sorted.Pairwise fun a b => key a ≤ key b
  stable : ∀ k, sorted.filter (key · = k) = given.filter (key · = k)

section StableSort

variable {α κ : Type} [LinearOrder κ] {key : α → κ}

/-- In two lists of the same elements that are ordered by a key, the first elements have the same
key. -/
theorem key_eq_of_ordered {a b : α} {l m : List α} (shuffled : (a :: l).Perm (b :: m))
    (hl : (a :: l).Pairwise fun x y => key x ≤ key y)
    (hm : (b :: m).Pairwise fun x y => key x ≤ key y) :
    key a = key b := by
  have least {c d : α} {n : List α} (ordered : (c :: n).Pairwise fun x y => key x ≤ key y)
      (inside : d ∈ c :: n) : key c ≤ key d := by
    rcases List.mem_cons.1 inside with rfl | inside
    · exact le_rfl
    · exact List.rel_of_pairwise_cons ordered inside
  exact le_antisymm (least hl (shuffled.mem_iff.2 List.mem_cons_self))
    (least hm (shuffled.mem_iff.1 List.mem_cons_self))

/-- Lists that are ordered by a key and have the same elements with each key are equal. -/
theorem eq_of_filter_eq {l m : List α} (shuffled : l.Perm m)
    (hl : l.Pairwise fun x y => key x ≤ key y)
    (hm : m.Pairwise fun x y => key x ≤ key y)
    (stable : ∀ k, l.filter (key · = k) = m.filter (key · = k)) : l = m := by
  induction l generalizing m with
  | nil => exact shuffled.nil_eq
  | cons a l ih =>
      cases m with
      | nil => exact shuffled.eq_nil
      | cons b m =>
          have keys := key_eq_of_ordered shuffled hl hm
          -- The first elements have the least key, so each is the first of its key.
          have first := stable (key a)
          rw [List.filter_cons_of_pos (by simp), List.filter_cons_of_pos (by simp [keys])] at first
          obtain rfl : a = b := (List.cons.inj first).1
          have later : ∀ k, l.filter (key · = k) = m.filter (key · = k) := by
            intro k
            have both := stable k
            by_cases kept : key a = k
            · rw [List.filter_cons_of_pos (by simpa using kept),
                List.filter_cons_of_pos (by simpa using kept)] at both
              exact (List.cons.inj both).2
            · rwa [List.filter_cons_of_neg (by simpa using kept),
                List.filter_cons_of_neg (by simpa using kept)] at both
          rw [ih shuffled.cons_inv hl.of_cons hm.of_cons later]

variable {given sorted other : List α}

/-- **One way only.** Two stable sorts of a list are equal. -/
theorem StableSort.unique (h : StableSort key given sorted) (h' : StableSort key given other) :
    other = sorted :=
  eq_of_filter_eq (h'.permutation.trans h.permutation.symm) h'.ordered h.ordered
    fun k => (h'.stable k).trans (h.stable k).symm

/-- A list whose neighbours are in order is its own stable sort. -/
theorem stableSort_self (h : given.IsChain fun a b => key a ≤ key b) :
    StableSort key given given := by
  have :
    Trans (fun a b => key a ≤ key b) (fun a b => key a ≤ key b) fun a b => key a ≤ key b :=
    ⟨fun first second => le_trans first second⟩
  exact ⟨List.Perm.refl given, h.pairwise, fun _ => rfl⟩

end StableSort

-- ── Sorting by position ─────────────

namespace Diagnostic

/-- The position of a diagnostic in the order of positions, by line and then by column. -/
def place (d : Diagnostic) : Nat ×ₗ Nat :=
  toLex d.position

theorem positionLE_iff_place_le {a b : Diagnostic} :
    positionLE a b = true ↔ a.place ≤ b.place := by
  rw [positionLE_iff, place, place, Prod.Lex.toLex_le_toLex]

/-- Sorting by position leaves the diagnostics at one position in their order. -/
theorem filter_place_mergeSort (given : List Diagnostic) (p : Nat ×ₗ Nat) :
    (given.mergeSort positionLE).filter (·.place = p) = given.filter (·.place = p) := by
  -- Those at one position are in order as they stand, so sorting keeps them as a part of the list.
  have even : (given.filter (·.place = p)).Pairwise (positionLE · · = true) := by
    refine List.pairwise_of_forall_mem_list ?_
    intro a ha b hb
    have first : a.place = p := by simpa using (List.mem_filter.1 ha).2
    have second : b.place = p := by simpa using (List.mem_filter.1 hb).2
    exact positionLE_iff_place_le.2 (first.trans second.symm).le
  have part := (List.sublist_mergeSort (fun a b c => @positionLE_trans a b c) positionLE_total even
    List.filter_sublist).filter fun d : Diagnostic => decide (d.place = p)
  rw [List.filter_filter] at part
  simp only [Bool.and_self] at part
  refine (part.eq_of_length ?_).symm
  exact ((List.mergeSort_perm given positionLE).filter _).length_eq.symm

/-- **Sorting.** It is a stable sort by position. -/
theorem stableSort_mergeSort (given : List Diagnostic) :
    StableSort place given (given.mergeSort positionLE) where
  permutation := List.mergeSort_perm given positionLE
  ordered :=
    (List.pairwise_mergeSort (fun a b c => @positionLE_trans a b c) positionLE_total given).imp
    positionLE_iff_place_le.1
  stable := filter_place_mergeSort given

end Diagnostic

-- ── Flushes ─────────────────────────

namespace Queue

/-- What a flush of a queue hands over: the one stable sort by position of what was kept. It is what
sorting gives if it is done in any case, and what was kept itself if neighbours are in order there.
The queue is left empty. -/
structure FlushesStably (q : Queue) : Prop where
  sorts : StableSort Diagnostic.place q.toList q.flush.1
  only : ∀ other, StableSort Diagnostic.place q.toList other → other = q.flush.1
  unconditional : q.flush.1 = q.toList.mergeSort Diagnostic.positionLE
  shortcut : q.toList.IsChain (fun a b => a.place ≤ b.place) → q.flush.1 = q.toList
  empties : q.flush.2 = withLimit q.limit

theorem flushesStably (q : Queue) : q.FlushesStably := by
  have sorted : q.flush.1 = q.toList.mergeSort Diagnostic.positionLE :=
    congrArg Prod.fst q.flush_eq_mergeSort
  have sorts : StableSort Diagnostic.place q.toList q.flush.1 := by
    rw [sorted]
    exact Diagnostic.stableSort_mergeSort q.toList
  refine ⟨sorts, fun _ => sorts.unique, sorted, ?_, congrArg Prod.snd q.flush_eq_mergeSort⟩
  intro inOrder
  exact (sorts.unique (stableSort_self inOrder)).symm

end Queue

/-- **Flushes.** A flush hands over the stable sort by position of what the queue has kept, whatever
that is; and after any operations what it has kept is the first of the reports since it was last
emptied. -/
theorem flush_stable :
    (∀ q : Queue, q.FlushesStably) ∧
    ∀ (limit : Nat) (ops : List Queue.Operation), ∃ answers sorted,
      stepAll Queue.step (Queue.withLimit limit) (ops ++ [.flush]) =
        .ok (answers ++ [.diagnostics sorted], Queue.withLimit limit) ∧
      StableSort Diagnostic.place
        ((Queue.history ops).take (Queue.allowed limit (Queue.history ops).length)) sorted := by
  refine ⟨Queue.flushesStably, ?_⟩
  intro limit ops
  obtain ⟨answers, done⟩ := Queue.stepAll_withLimit limit ops
  have flushed := (Queue.holding limit (Queue.history ops)).flushesStably
  refine ⟨answers, (Queue.holding limit (Queue.history ops)).flush.1,
    stepAll_concat done ?_, ?_⟩
  · show Except.ok (_, (Queue.holding limit (Queue.history ops)).flush.2) = _
    rw [flushed.empties]
    rfl
  · have sorts := flushed.sorts
    rwa [Queue.toList_holding, Queue.within_eq_take] at sorts

end LoxScan
