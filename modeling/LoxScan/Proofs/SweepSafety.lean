import LoxScan.Proofs.SweepTurn

/-!
# A sweep over any text comes to its end

Turn by turn, a sweep takes the elements off a text in which it begins, as reading does; each turn
meets its demands and leaves the cursor between two texts that make up the whole. So the sweep ends,
over every text, and what was told on the way is what the scan of the text finds, in order.

* **`sweep_of_tiled`**: all turns over a row of elements.
* **`lex_eq`**: a sweep over a text ends, with every demand met, and tells what there is to tell of
  the scan of it.
* **`stands_of_reached`**: wherever a turn begins the sweep stands between two texts.
* **`sweep_safe`**: so a sweep never fails; its cursor stays within the text and between its
  characters and never before the start of its line, and every turn moves it on.
-/

namespace LoxScan

open Utf8

namespace Sweep

variable {ρ : Type} [Reporter ρ] {s t : Sweep ρ} {before after : List Char}

-- ── Whole texts ─────────────────────

/-- **All turns.** Over a row of elements a sweep ends behind the last of them, and what it has told
in the end is what is found in each. -/
theorem sweep_of_tiled {es : List Element} (tiled : Element.Tiled es) {s : Sweep ρ}
    {before : List Char} (h : s.Stands before (es.flatMap Element.text)) :
    ∃ t, s.sweep = .ok t ∧ t.Stands (before ++ es.flatMap Element.text) [] ∧
      t.told = s.told.addAll
        ((Placed.lay (Position.origin.advance before) es).filterMap Finding.ofPlaced?) := by
  induction tiled generalizing s before with
  | nil =>
      have ended : s.cursor.isEof = true := by
        rw [h.cursor]
        exact Cursor.isEof_between_nil before
      refine ⟨s, sweep_of_isEof ended, ?_, rfl⟩
      rw [List.flatMap_nil, List.append_nil]
      exact h
  | @cons e es good ends _ ih =>
      rw [List.flatMap_cons] at h
      obtain ⟨next, turn, stands, told⟩ := takes_of_endsBefore h good ends
      obtain ⟨t, swept, finish, later⟩ := ih stands
      have more : s.cursor.isEof = false := by
        obtain ⟨c, text, begins⟩ := List.exists_cons_of_ne_nil good.text_ne_nil
        rw [h.cursor, begins]
        exact Cursor.isEof_between_cons ..
      refine ⟨t, (sweep_of_turn more turn).trans swept, ?_, ?_⟩
      · rw [List.flatMap_cons, ← List.append_assoc]
        exact finish
      · rw [later, told, ← Told.addAll_append, Position.advance_append, Placed.lay_cons,
          List.filterMap_cons]
        cases Finding.ofPlaced? ⟨e, Position.origin.advance before⟩ with
        | none => rfl
        | some found => rfl

/-- **What is told.** A sweep over a text comes to its end, and what it has told then is what there
is to tell of the scan of the text. -/
theorem lex_eq (source : List Char) (reporter : ρ) :
    lex source reporter = .ok ((Scan.ofList source).told reporter) := by
  have whole := Element.flatMap_text_tile source
  have start := stands_ofList source reporter
  rw [← whole] at start
  obtain ⟨t, swept, stands, told⟩ := sweep_of_tiled (Element.tiled_tile source) start
  rw [whole] at swept stands
  have finish : t.told = Told.addAll { reporter } (Scan.ofList source).findings := told
  rw [Told.addAll_eq] at finish
  have line : t.line = Word.saturate (Scan.ofList source).finish.line := stands.line
  have offset : (Scan.ofList source).finish.offset = byteLength source :=
    Position.offset_origin_advance source
  have position : t.cursor.position = (Scan.ofList source).finish.offset := by
    rw [stands.cursor, List.nil_append, Cursor.position_between, offset]
  have last : Token.eof (Word.saturate (Scan.ofList source).finish.line)
      (Span.ofRange t.cursor.position t.cursor.position).start = (Scan.ofList source).eof := by
    rw [position]
    rfl
  rw [lex, run, swept, ← offset]
  show Except.ok _ = Except.ok _
  rw [Told.finish, finish, line, last, Scan.told]
  simp [Scan.tokens, Scan.faults, Scan.diagnostics, Scan.events, Scan.innerEvents]

-- ── Every state on the way ──────────

/-- Where something is left to read a turn takes an element off it. -/
theorem exists_takes (h : s.Stands before after) (more : s.cursor.isEof = false) :
    ∃ e rest, after = e.text ++ rest ∧ s.Takes before e rest := by
  obtain ⟨c, rest, rfl⟩ : ∃ c rest, after = c :: rest := by
    refine List.exists_cons_of_ne_nil ?_
    rintro rfl
    rw [h.cursor, Cursor.isEof_between_nil] at more
    exact nomatch more
  have read := Element.text_next_append c rest
  obtain ⟨good, ends⟩ := Element.whole_next c rest
  rw [← read] at h
  exact ⟨_, _, read.symm, takes_of_endsBefore h good ends⟩

/-- Wherever a turn begins the sweep stands between two texts that make up the whole. -/
theorem stands_of_reached {source : List Char} {reporter : ρ} {s : Sweep ρ}
    (h : Reached source reporter s) :
    ∃ before after, source = before ++ after ∧ s.Stands before after := by
  induction h with
  | start => exact ⟨[], source, rfl, stands_ofList source reporter⟩
  | @turn s t _ more turn ih =>
      obtain ⟨before, after, rfl, stands⟩ := ih
      obtain ⟨e, rest, rfl, next, taken, later, -⟩ := exists_takes stands more
      obtain rfl := Except.ok.inj (taken.symm.trans turn)
      exact ⟨before ++ e.text, rest, (List.append_assoc ..).symm, later⟩

end Sweep

/-- **No failure.** Over every text, whatever reporter is told of its faults, a sweep comes to its
end, and tells what there is to tell of the scan of the text. So no demand fails on the way: a text
is cut out between characters only, a column is that of an offset not before its line, bytes are
looked through from within the text, and a token carries a value exactly if its kind has one.
Wherever a turn begins the cursor stands within the text and between its characters, not before the
start of its line, and while there is something left to read the turn comes to its end and moves the
cursor on. -/
theorem sweep_safe {ρ : Type} [Reporter ρ] (source : String) (reporter : ρ) :
    Sweep.lex source.toList reporter = .ok ((Scan.ofString source).told reporter) ∧
      ∀ s, Sweep.Reached source.toList reporter s →
        s.cursor.position ≤ source.utf8ByteSize ∧
        Boundary source.toList s.cursor.position ∧
        s.lineStart ≤ s.cursor.position ∧
        (s.cursor.isEof = false → ∃ t, s.turn = .ok t ∧
          s.cursor.position < t.cursor.position) := by
  refine ⟨Sweep.lex_eq source.toList reporter, ?_⟩
  intro s reached
  obtain ⟨before, after, whole, stands⟩ := Sweep.stands_of_reached reached
  have position : s.cursor.position = byteLength before := by
    rw [stands.cursor, Cursor.position_between]
  rw [← byteLength_toList, whole, position]
  refine ⟨?_, boundary_append before after, ?_, ?_⟩
  · rw [byteLength_append]
    exact Nat.le_add_right ..
  · rw [stands.lineStart, ← Position.offset_origin_advance]
    exact Position.lineStart_le_offset (Nat.le_refl 0) before
  · intro more
    obtain ⟨e, rest, -, t, turn, -⟩ := Sweep.exists_takes stands more
    have moved := (Sweep.moves_turn more turn).2
    rw [position] at moved
    exact ⟨t, turn, moved⟩

end LoxScan
