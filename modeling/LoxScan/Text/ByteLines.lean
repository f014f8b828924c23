import Mathlib.Data.List.SplitBy

/-!
# Lines of bytes

A row of bytes is cut into lines after each line feed, so that every line but the last has one, at
its end.

* **`byteLines_append_of_newline`**: after a line feed the lines begin anew.
* **`byteLines_flatten_left`**: the first lines of a row are the lines of what they make up.
* **`byteLines_of_ended`**: lines with a line feed at their end and none before it are cut apart
  again.
-/

namespace LoxScan

/-- The lines of a row of bytes, each with the line feed that ends it. -/
def byteLines (bytes : List UInt8) : List (List UInt8) :=
  bytes.splitBy fun b _ => decide (b ≠ 10)

@[simp] theorem byteLines_nil : byteLines [] = [] :=
  rfl

/-- After a line feed the lines begin anew. -/
theorem byteLines_append_of_newline {bytes : List UInt8} (ended : bytes.getLast? = some 10)
    (later : List UInt8) : byteLines (bytes ++ later) = byteLines bytes ++ byteLines later := by
  refine List.splitBy_append ?_
  intro b hb c hc
  obtain rfl := Option.some.inj (ended.symm.trans hb)
  rfl

/-- The first lines of a row are the lines of what they make up. -/
theorem byteLines_flatten_left {bytes : List UInt8} {before after : List (List UInt8)}
    (cut : byteLines bytes = before ++ after) : byteLines before.flatten = before := by
  have nonempty : [] ∉ before ++ after := by
    rw [← cut]
    exact List.nil_notMem_splitBy _ _
  have ends := List.isChain_getLast_head_splitBy (fun b _ => decide (b ≠ 10)) bytes
  rw [← byteLines, cut] at ends
  refine List.splitBy_flatten ?_ ?_ ends.left_of_append
  · intro inside
    exact nonempty (List.mem_append_left after inside)
  · intro line inside
    have whole : line ∈ byteLines bytes := by
      rw [cut]
      exact List.mem_append_left after inside
    exact List.isChain_of_mem_splitBy whole

/-- Bytes of which no other than the last is a line feed are one line. -/
theorem byteLines_of_not_mem_dropLast {line : List UInt8} (nonempty : line ≠ [])
    (h : 10 ∉ line.dropLast) : byteLines line = [line] := by
  have inside : ∀ b ∈ line.dropLast, decide (b ≠ 10) = true := by
    intro b hb
    exact decide_eq_true (ne_of_mem_of_not_mem hb h)
  refine List.splitBy_of_isChain nonempty (List.Pairwise.isChain ?_)
  rw [← List.dropLast_concat_getLast nonempty]
  refine List.pairwise_append.2 ⟨?_, List.pairwise_singleton .., ?_⟩
  · exact List.pairwise_of_forall_mem_list fun b hb _ _ => inside b hb
  · intro b hb _ _
    exact inside b hb

/-- A line with a line feed at its end and none before it is the first line, whatever follows. -/
theorem byteLines_line_append {body : List UInt8} (flat : 10 ∉ body) (later : List UInt8) :
    byteLines (body ++ [10] ++ later) = (body ++ [10]) :: byteLines later := by
  rw [byteLines_append_of_newline List.getLast?_concat, byteLines_of_not_mem_dropLast (by simp)]
  · rfl
  · rw [List.dropLast_concat]
    exact flat

/-- Lines that are all ended are cut apart again. -/
theorem byteLines_of_ended {lines : List (List UInt8)}
    (ended : ∀ line ∈ lines, ∃ body, line = body ++ [10] ∧ 10 ∉ body) :
    byteLines lines.flatten = lines := by
  induction lines with
  | nil => rfl
  | cons line lines ih =>
      obtain ⟨body, rfl, flat⟩ := ended line List.mem_cons_self
      rw [List.flatten_cons, byteLines_line_append flat,
        ih fun line inside => ended line (List.mem_cons_of_mem _ inside)]

end LoxScan
