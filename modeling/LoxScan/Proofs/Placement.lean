import LoxScan.Proofs.Boundary
import LoxScan.Scan.Basic

/-!
# Elements in their places

A placed element stands between two texts, the one read before it and the one left after it. All
that is ever asked of a place in a scan is said by these two texts (`Placed.Between`): the position
is where the first one ends, and the element is whole, so that it does not go on into the second.

* **`between_of_mem_lay`**: every place in a scan cuts the source into the text before the element,
  the element, and the text after it.
* **`stop_offset_le`**: no place reaches beyond the end of the source.
-/

namespace LoxScan

open Utf8

-- ── Rows of whole elements ──────────

namespace Element

theorem Tiled.right {es fs : List Element} (h : Tiled (es ++ fs)) : Tiled fs := by
  induction es with
  | nil => exact h
  | cons e es ih =>
      cases h with
      | cons _ _ later => exact ih later

end Element

theorem Position.offset_origin_advance (text : List Char) :
    (Position.origin.advance text).offset = byteLength text := by
  rw [Position.offset_advance]
  exact Nat.zero_add _

namespace Placed

-- ── Places ──────────────────────────

theorem stop_offset (q : Placed) : q.stop.offset = q.start.offset + byteLength q.element.text :=
  Position.offset_advance ..

/-- Below the largest word the span of a place is its byte range. -/
theorem toNat_span {q : Placed} (fits : q.stop.offset ≤ Word.largest) :
    q.span.start.toNat = q.start.offset ∧
      q.span.stop.toNat = q.start.offset + byteLength q.element.text := by
  rw [← q.stop_offset]
  have later := q.stop_offset
  exact ⟨Word.toNat_saturate_of_le (by omega), Word.toNat_saturate_of_le fits⟩

/-- An element stands between two texts if it begins where the first ends, and is whole before the
second. -/
structure Between (q : Placed) (before after : List Char) : Prop where
  start : q.start = Position.origin.advance before
  wellFormed : q.element.WellFormed
  ends : q.element.EndsBefore after

/-- A place in a row of elements has elements before it and elements after it. -/
theorem exists_of_mem_lay {p : Position} {es : List Element} {q : Placed} (h : q ∈ lay p es) :
    ∃ before after, es = before ++ q.element :: after ∧
      q.start = p.advance (before.flatMap Element.text) := by
  induction es generalizing p with
  | nil => exact nomatch h
  | cons e es ih =>
      rcases List.mem_cons.1 h with rfl | h
      · exact ⟨[], es, rfl, rfl⟩
      · obtain ⟨before, after, split, start⟩ := ih h
        refine ⟨e :: before, after, congrArg (e :: ·) split, ?_⟩
        rw [start, List.flatMap_cons, Position.advance_append]

/-- **Places.** Every place in a scan cuts the source in three. -/
theorem between_of_mem_lay {source : List Char} {q : Placed}
    (h : q ∈ lay .origin (Element.tile source)) :
    ∃ before after, source = before ++ q.element.text ++ after ∧ q.Between before after := by
  obtain ⟨before, after, split, start⟩ := exists_of_mem_lay h
  have tiled := Element.tiled_tile source
  have whole := Element.flatMap_text_tile source
  rw [split] at tiled whole
  cases tiled.right with
  | cons good ends _ =>
      refine ⟨before.flatMap Element.text, after.flatMap Element.text, ?_, start, good, ends⟩
      rw [← whole, List.flatMap_append, List.flatMap_cons, List.append_assoc]

variable {q : Placed} {before after : List Char}

theorem Between.stop (h : q.Between before after) :
    q.stop = Position.origin.advance (before ++ q.element.text) := by
  rw [Position.advance_append, ← h.start]
  rfl

theorem Between.start_offset (h : q.Between before after) : q.start.offset = byteLength before := by
  rw [h.start, Position.offset_origin_advance]

theorem Between.stop_offset (h : q.Between before after) :
    q.stop.offset = byteLength before + byteLength q.element.text := by
  rw [h.stop, Position.offset_origin_advance, byteLength_append]

/-- No place reaches beyond the end of the source. -/
theorem stop_offset_le {source : List Char} (h : q ∈ lay .origin (Element.tile source)) :
    q.stop.offset ≤ byteLength source := by
  obtain ⟨before, after, rfl, between⟩ := between_of_mem_lay h
  rw [between.stop_offset, byteLength_append, byteLength_append]
  omega

end Placed

namespace Scan

-- ── What is found ───────────────────

variable {source : List Char}

theorem exists_of_mem_tokens {t : Token} (h : t ∈ (ofList source).tokens) :
    (∃ q ∈ Placed.lay .origin (Element.tile source), Finding.ofPlaced? q = some (.token t)) ∨
      t = (ofList source).eof := by
  rcases List.mem_append.1 h with h | h
  · obtain ⟨found, hf, ht⟩ := List.mem_filterMap.1 h
    obtain ⟨q, hq, placed⟩ := List.mem_filterMap.1 hf
    cases found with
    | token u =>
        obtain rfl := Option.some.inj ht
        exact Or.inl ⟨q, hq, placed⟩
    | fault f => exact nomatch ht
  · exact Or.inr (List.mem_singleton.1 h)

theorem exists_of_mem_diagnostics {d : Diagnostic} (h : d ∈ (ofList source).diagnostics) :
    ∃ q ∈ Placed.lay .origin (Element.tile source), ∃ f,
      Finding.ofPlaced? q = some (.fault f) ∧ d = f.toDiagnostic := by
  obtain ⟨f, hf, rfl⟩ := List.mem_map.1 h
  obtain ⟨found, hf, yields⟩ := List.mem_filterMap.1 hf
  obtain ⟨q, hq, placed⟩ := List.mem_filterMap.1 hf
  cases found with
  | token t => exact nomatch yields
  | fault g =>
      obtain rfl := Option.some.inj yields
      exact ⟨q, hq, g, placed, rfl⟩

theorem start_eof (short : byteLength source < Word.largest) :
    (Scan.ofList source).eof.span.start.toNat = byteLength source := by
  show (Word.saturate (Position.origin.advance source).offset).toNat = _
  rw [Position.offset_origin_advance]
  exact Word.toNat_saturate_of_le (Nat.le_of_lt short)

end Scan

end LoxScan
