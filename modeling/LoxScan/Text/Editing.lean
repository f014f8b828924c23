/-!
# Deleting words and inserting after one

Two edits of a text that are said of the text alone. Some words are deleted wherever one of them
stands, from the front to the back; a text is inserted after the first place where a word stands.
Where the words begin and end is settled by a mark: if every word begins with a character that some
text lacks, no word begins in that text, whatever follows it, and if no word begins with another
one, at most one of them stands at a place.

* **`deleteAll_word`**, **`deleteAll_append_of_lacks`**: a word at the front is deleted, and a text
  that no word begins in is left as it is.
* **`insertAfter_append`**: the first place is found behind a text that lacks the first character of
  the word.
-/

namespace LoxScan

variable {α : Type} [DecidableEq α]

-- ── Deleting ────────────────────────

/-- Deletes some words wherever one of them stands in a text. -/
def deleteAll (words : List (List α)) : List α → List α
  | [] => []
  | a :: rest =>
    match words.find? (·.isPrefixOf (a :: rest)) with
    | some word => deleteAll words (rest.drop (word.length - 1))
    | none => a :: deleteAll words rest
termination_by text => text.length
decreasing_by
  · rw [List.length_drop, List.length_cons]
    omega
  · exact Nat.lt_succ_self _

@[simp] theorem deleteAll_nil (words : List (List α)) : deleteAll words [] = [] := by
  rw [deleteAll]

variable {words : List (List α)} {word rest : List α}

/-- A word at the front of a text is deleted, if no word begins with another one. -/
theorem deleteAll_word (inside : word ∈ words) (filled : word ≠ [])
    (free : ∀ v ∈ words, ∀ w ∈ words, v <+: w → v = w) :
    deleteAll words (word ++ rest) = deleteAll words rest := by
  have begins : word.isPrefixOf (word ++ rest) = true :=
    List.isPrefixOf_iff_prefix.2 (List.prefix_append word rest)
  have sought : (words.find? (·.isPrefixOf (word ++ rest))).isSome = true :=
    List.find?_isSome.2 ⟨word, inside, begins⟩
  obtain ⟨found, first⟩ := Option.isSome_iff_exists.1 sought
  have matched := List.find?_some first
  have stands : found <+: word ++ rest := List.isPrefixOf_iff_prefix.1 matched
  have unique : found = word := by
    rcases List.prefix_or_prefix_of_prefix stands
      (List.prefix_append word rest) with shorter | longer
    · exact free found (List.mem_of_find?_eq_some first) word inside shorter
    · exact (free word inside found (List.mem_of_find?_eq_some first) longer).symm
  subst unique
  cases found with
  | nil => exact absurd rfl filled
  | cons a tail =>
      rw [List.cons_append] at first ⊢
      rw [deleteAll, first]
      simp

/-- A text that lacks the mark with which every word begins is left as it is. -/
theorem deleteAll_append_of_lacks {mark : α} (marked : ∀ w ∈ words, w.head? = some mark)
    {text : List α}
    (lacks : mark ∉ text) (rest : List α) :
    deleteAll words (text ++ rest) = text ++ deleteAll words rest := by
  induction text with
  | nil => rfl
  | cons a text ih =>
      have other : a ≠ mark := fun marked => lacks (marked ▸ List.mem_cons_self)
      have absent : words.find? (·.isPrefixOf (a :: (text ++ rest))) = none := by
        refine List.find?_eq_none.2 ?_
        intro w hw begins
        obtain ⟨tail, rfl⟩ : ∃ tail, w = mark :: tail :=
          List.head?_eq_some_iff.1 (marked w hw)
        obtain ⟨more, whole⟩ := List.isPrefixOf_iff_prefix.1 begins
        exact other (List.cons.inj whole).1.symm
      rw [List.cons_append, deleteAll, absent, List.cons_append]
      exact congrArg (a :: ·) (ih fun inside => lacks (List.mem_cons_of_mem a inside))

-- ── Inserting ───────────────────────

/-- Inserts a text after the first place where a word stands, if there is one. -/
def insertAfter (word inserted : List α) : List α → List α
  | [] => []
  | a :: rest =>
    if word.isPrefixOf (a :: rest) then word ++ inserted ++ (a :: rest).drop word.length
    else a :: insertAfter word inserted rest

/-- The first place where a word stands comes after a text that lacks its first character. -/
theorem insertAfter_append {a : α} {inserted before after : List α} (lacks : a ∉ before) :
    insertAfter (a :: word) inserted (before ++ (a :: word) ++ after) =
      before ++ (a :: word) ++ inserted ++ after := by
  induction before with
  | nil =>
      have begins : (a :: word).isPrefixOf (a :: (word ++ after)) = true :=
        List.isPrefixOf_iff_prefix.2 (List.prefix_append (a :: word) after)
      simp only [List.nil_append, List.cons_append]
      rw [insertAfter, if_pos begins]
      simp
  | cons b before ih =>
      have other : a ≠ b := fun equal => lacks (equal ▸ List.mem_cons_self)
      have later : ¬ (a :: word).isPrefixOf (b :: (before ++ (a :: word) ++ after)) = true := by
        intro begins
        obtain ⟨more, whole⟩ := List.isPrefixOf_iff_prefix.1 begins
        exact other (List.cons.inj whole).1
      simp only [List.cons_append] at later ⊢
      rw [insertAfter, if_neg later]
      simpa using ih fun inside => lacks (List.mem_cons_of_mem b inside)

end LoxScan
