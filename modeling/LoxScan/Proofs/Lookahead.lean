import LoxScan.Proofs.Concatenation

/-!
# Bounded lookahead

What follows an element decides where it ends, but only its first two bytes do. A digit after the
point after a number is the farthest that is ever looked at; everything else is settled by the next
character alone. So once two more bytes of a text are known, nothing that comes after them takes an
element back: the elements before the last two bytes of a text stay what and where they are, however
the text goes on. An open string is no exception, for it goes on to the very end of the text, and is
not settled by any of it.

* **`EndsBefore.right`**: an element that ends before two bytes or more ends before whatever they
  begin.
* **`EndsBefore.exchange`**: one character is enough if it is no point.
* **`exists_tile_append`**: so the elements before the last two bytes of a text begin every longer
  text.
* **`exists_settled`**: these are the first elements of the text, and they are all that end that
  early.
* **`bounded_lookahead`**: so tokens and diagnostics are settled two bytes after their end.
-/

namespace LoxScan

open Utf8

-- ── Two bytes are enough ────────────

namespace Element

theorem Avoids.right {p : Char → Bool} {x : List Char} (h : Avoids p x) (nonempty : x ≠ [])
    (y : List Char) : Avoids p (x ++ y) := by
  obtain ⟨c, x, rfl⟩ := List.exists_cons_of_ne_nil nonempty
  exact avoids_cons (h c rfl)

/-- What comes after a text that an element ends before is of no account, unless nothing is known of
it but that it begins with a point. -/
theorem EndsBefore.append {e : Element} {x : List Char} (h : e.EndsBefore x) (nonempty : x ≠ [])
    (point : x ≠ ['.']) (y : List Char) : e.EndsBefore (x ++ y) := by
  cases e with
  | punctuator p =>
      exact ⟨fun longer => (h.1 longer).right nonempty y,
        fun slash => (h.2 slash).right nonempty y⟩
  | number whole fraction =>
      cases fraction with
      | nil =>
          refine ⟨h.1.right nonempty y, ?_⟩
          intro d more begins
          rcases List.append_eq_cons_iff.1 begins with ⟨empty, -⟩ | ⟨tail, rfl, rest⟩
          · exact absurd empty nonempty
          · rcases List.append_eq_cons_iff.1 rest.symm with ⟨rfl, -⟩ | ⟨tail, rfl, -⟩
            · -- After the point alone, it is not known whether a digit follows.
              exact absurd rfl point
            · exact h.2 d tail rfl
      | cons d fraction => exact Avoids.right h nonempty y
  | word letters => exact Avoids.right h nonempty y
  | comment body => exact Avoids.right h nonempty y
  | openString body => exact absurd h nonempty
  | string body => trivial
  | blank c => trivial
  | stray c => trivial

/-- What comes after the two bytes that an element ends before is of no account. -/
theorem EndsBefore.right {e : Element} {x : List Char} (h : e.EndsBefore x)
    (seen : 2 ≤ byteLength x)
    (y : List Char) : e.EndsBefore (x ++ y) := by
  refine h.append ?_ ?_ y
  · rintro rfl
    exact absurd seen (by decide)
  · rintro rfl
    exact absurd seen (by decide)

/-- One character alone decides where the element before it ends, unless it is a point. -/
theorem EndsBefore.exchange {e : Element} {x y : List Char} {c : Char}
    (h : e.EndsBefore (x ++ c :: y))
    (other : c ≠ '.') (z : List Char) : e.EndsBefore (x ++ c :: z) := by
  rw [List.append_cons] at h ⊢
  refine h.left.append (List.concat_ne_nil c x) ?_ z
  intro point
  have last := congrArg List.getLast? point
  rw [List.getLast?_concat] at last
  exact other (Option.some.inj last)

/-- Rows that are followed by two bytes or more can be followed by whatever these begin. -/
theorem Tiled.append_of_seen {es fs gs : List Element} (h : Tiled (es ++ fs)) (later : Tiled gs)
    (seen : 2 ≤ byteLength (fs.flatMap text)) {y : List Char}
    (begins : gs.flatMap text = fs.flatMap text ++ y) : Tiled (es ++ gs) := by
  induction es with
  | nil => exact later
  | cons e es ih =>
      cases h with
      | cons good ends h =>
          refine Tiled.cons good ?_ (ih h)
          show e.EndsBefore ((es ++ gs).flatMap text)
          have ends : e.EndsBefore ((es ++ fs).flatMap text) := ends
          have enough : 2 ≤ byteLength ((es ++ fs).flatMap text) := by
            rw [List.flatMap_append, byteLength_append]
            omega
          rw [List.flatMap_append, begins, ← List.append_assoc, ← List.flatMap_append]
          exact ends.right enough y

/-- **Settled elements.** The elements before the last two bytes of a text begin every longer
text. -/
theorem exists_tile_append {a : List Char} {es fs : List Element} (rows : tile a = es ++ fs)
    (seen : es = [] ∨ 2 ≤ byteLength (fs.flatMap text)) (b : List Char) :
    ∃ gs, tile (a ++ b) = es ++ gs := by
  have whole := flatMap_text_tile a
  have tiled := tiled_tile a
  have rest := flatMap_text_tile (fs.flatMap text ++ b)
  rw [rows] at whole tiled
  refine ⟨tile (fs.flatMap text ++ b), tile_eq_iff.2 ⟨?_, ?_⟩⟩
  · rw [List.flatMap_append, rest, ← List.append_assoc, ← List.flatMap_append, whole]
  · rcases seen with rfl | seen
    · exact tiled_tile _
    · exact tiled.append_of_seen (tiled_tile _) seen rest

/-- One byte is not enough: a number with a point after it may turn out to be the whole part of
another. -/
example : tile ['1', '.'] = [.number ['1'] [], .punctuator .dot] ∧
    tile ['1', '.', '5'] = [.number ['1'] ['5']] := by cbv

end Element

/-- The elements of a row that end two bytes before an offset come first, and of the others none
does. -/
theorem Placed.exists_settled (p : Position) (es : List Element) (n : Nat) :
    ∃ fs gs, es = fs ++ gs ∧
      (fs = [] ∨ (p.advance (fs.flatMap Element.text)).offset + 2 ≤ n) ∧
      ∀ q ∈ lay (p.advance (fs.flatMap Element.text)) gs, n < q.stop.offset + 2 := by
  induction es generalizing p with
  | nil => exact ⟨[], [], rfl, Or.inl rfl, fun _ inside => nomatch inside⟩
  | cons e es ih =>
      by_cases early : (p.advance e.text).offset + 2 ≤ n
      · obtain ⟨fs, gs, rfl, settled, others⟩ := ih (p.advance e.text)
        refine ⟨e :: fs, gs, rfl, Or.inr ?_, ?_⟩
        · rw [List.flatMap_cons, Position.advance_append]
          rcases settled with rfl | settled
          · exact early
          · exact settled
        · rw [List.flatMap_cons, Position.advance_append]
          exact others
      · refine ⟨[], e :: es, rfl, Or.inl rfl, ?_⟩
        intro q hq
        rcases List.mem_cons.1 hq with rfl | hq
        · exact Nat.not_le.1 early
        · obtain ⟨before, -, -, start⟩ := exists_of_mem_lay hq
          have later : q.stop.offset = (p.advance e.text).offset +
              byteLength (before.flatMap Element.text) + byteLength q.element.text := by
            rw [stop_offset, start, Position.offset_advance]
            rfl
          omega

-- ── Settled findings ────────────────

/-- An entry of a row that is none of the last ones has its place whatever these are. -/
theorem getElem?_append_of_not_mem {α : Type} {a b : List α} {i : Nat} {x : α}
    (h : (a ++ b)[i]? = some x) (early : x ∉ b) (c : List α) : (a ++ c)[i]? = some x := by
  by_cases within : i < a.length
  · rw [List.getElem?_append_left within] at h ⊢
    exact h
  · rw [List.getElem?_append_right (Nat.not_lt.1 within)] at h
    exact absurd (List.mem_of_getElem? h) early

namespace Scan

/-- Two scans, of a text and of a longer one, begin with the same findings, and all others of the
first end in the last two bytes of the text. -/
theorem exists_findings {a : List Char} (short : byteLength a < Word.largest) (b : List Char) :
    ∃ settled open_ later, (ofList a).findings = settled ++ open_ ∧
      (ofList (a ++ b)).findings = settled ++ later ∧
      ∀ found ∈ open_, byteLength a < found.span.stop.toNat + 2 := by
  obtain ⟨es, fs, rows, settled, others⟩ :=
    Placed.exists_settled .origin (Element.tile a) (byteLength a)
  have whole := Element.flatMap_text_tile a
  rw [rows, List.flatMap_append] at whole
  have seen : es = [] ∨ 2 ≤ byteLength (fs.flatMap Element.text) := by
    rcases settled with never | settled
    · exact Or.inl never
    · have length := congrArg byteLength whole
      rw [byteLength_append] at length
      rw [Position.offset_origin_advance] at settled
      exact Or.inr (by omega)
  obtain ⟨gs, longer⟩ := Element.exists_tile_append rows seen b
  have findings {source : List Char} {gs : List Element} (tiles : Element.tile source = es ++ gs) :
      (ofList source).findings = (Placed.lay .origin es).filterMap Finding.ofPlaced? ++
        (Placed.lay (Position.origin.advance (es.flatMap Element.text)) gs).filterMap
          Finding.ofPlaced? := by
    rw [ofList, tiles, Placed.lay_append, List.filterMap_append]
  refine ⟨_, _, _, findings rows, findings longer, ?_⟩
  intro found inside
  obtain ⟨q, hq, placed⟩ := List.mem_filterMap.1 inside
  have place : q ∈ Placed.lay .origin (Element.tile a) := by
    rw [rows, Placed.lay_append]
    exact List.mem_append_right _ hq
  have stop := Placed.stop_offset_le place
  rw [Finding.span_of_ofPlaced? placed, (Placed.toNat_span (by omega)).2, ← Placed.stop_offset]
  exact others q hq

/-- What a scan has settled, if so many bytes were scanned: a token but the last, or a diagnostic,
that ends two bytes before their end or earlier has the same place in the row of the other scan. -/
structure Settles (s longer : Scan) (length : Nat) : Prop where
  token : ∀ (i : Nat) (t : Token), s.tokens[i]? = some t → t.kind ≠ .eof →
    t.span.stop.toNat + 2 ≤ length → longer.tokens[i]? = some t
  diagnostic : ∀ (i : Nat) (d : Diagnostic) (span : Span), s.diagnostics[i]? = some d →
    d.span = some span → span.stop.toNat + 2 ≤ length → longer.diagnostics[i]? = some d

end Scan

/-- **Lookahead.** However a text goes on, what ended two bytes before its end stays what and where
it is. -/
theorem bounded_lookahead (s t : String) (short : s.utf8ByteSize + t.utf8ByteSize < Word.largest) :
    (Scan.ofString s).Settles (Scan.ofString (s ++ t)) s.utf8ByteSize := by
  rw [← byteLength_toList, ← byteLength_toList] at short
  obtain ⟨settled, open_, later, found, longer, last⟩ :=
    Scan.exists_findings (a := s.toList) (by omega) t.toList
  rw [← byteLength_toList, Scan.ofString, Scan.ofString, String.toList_append]
  refine ⟨?_, ?_⟩
  · intro i tok h other early
    rw [Scan.tokens, found, List.filterMap_append, List.append_assoc] at h
    rw [Scan.tokens, longer, List.filterMap_append, List.append_assoc]
    refine getElem?_append_of_not_mem h ?_ _
    intro inside
    rcases List.mem_append.1 inside with inside | inside
    · obtain ⟨f, hf, yields⟩ := List.mem_filterMap.1 inside
      cases f with
      | fault f => cases yields
      | token u =>
          obtain rfl := Option.some.inj yields
          exact absurd early (Nat.not_le.2 (last _ hf))
    · obtain rfl := List.mem_singleton.1 inside
      exact other rfl
  · intro i d span h covers early
    rw [Scan.diagnostics, Scan.faults, found, List.filterMap_append, List.map_append] at h
    rw [Scan.diagnostics, Scan.faults, longer, List.filterMap_append, List.map_append]
    refine getElem?_append_of_not_mem h ?_ _
    intro inside
    obtain ⟨f, hf, rfl⟩ := List.mem_map.1 inside
    obtain ⟨g, hg, yields⟩ := List.mem_filterMap.1 hf
    cases g with
    | token u => cases yields
    | fault g =>
        obtain rfl := Option.some.inj yields
        obtain rfl := Option.some.inj covers
        exact absurd early (Nat.not_le.2 (last _ hg))

/-- A number, a stray character and an operator are settled; a point after a number at the end is
not. -/
theorem bounded_lookahead_mixed :
    "@ a<\n12.".utf8ByteSize + "5\"".utf8ByteSize < Word.largest ∧
      (Scan.ofString "@ a<\n12.").Settles (Scan.ofString ("@ a<\n12." ++ "5\""))
        "@ a<\n12.".utf8ByteSize :=
  ⟨by decide, bounded_lookahead _ _ (by decide)⟩

end LoxScan
