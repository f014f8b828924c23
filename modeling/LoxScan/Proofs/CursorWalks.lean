import LoxScan.Text.Operation

/-!
# Cursors by single bytes

A cursor that moves to a line feed or to a quote searches all the bytes that are left, and reckons
where it ends, and where the last line on the way begins, from offsets among these. The plain way to
get there is a walk (`Cursor.walk`): one byte after another up to the one that is looked for or to
the end, with the line feeds counted as they are passed. Both ways end at the same byte with the
same account of the line feeds, from every place, the end and the middle of a character among them.

A walk takes the bytes off the front of those that are left, and so do the bulk moves; that is the
induction (`along_eq`). Where a cursor can stand at all is a matter of the operations before, and of
these no more is needed than that they leave it within its text.

* **`along_eq`**: a walk ends where moving over a class of bytes ends, and passes the line feeds
  among them.
* **`behaves_of_within`**: within a text every operation does as it should.
* **`cursor_behaves_after`**: so it does after any row of operations, by whatever exact search.
-/

namespace LoxScan

open Utf8

namespace Cursor

-- ── Walks ───────────────────────────

/-- A cursor on its way over single bytes: the line feeds it has passed, and the offset after the
last of them. -/
structure Walk where
  cursor : Cursor
  lineFeeds : Nat := 0
  lastLineStart : Option Nat := none

namespace Walk

/-- Passes one byte. -/
def pass (w : Walk) : Walk :=
  if w.cursor.current = 10 then
    ⟨w.cursor.advance, w.lineFeeds + 1, some (w.cursor.position + 1)⟩
  else { w with cursor := w.cursor.advance }

theorem cursor_pass (w : Walk) : w.pass.cursor = w.cursor.advance := by
  rw [pass]
  split
  case isTrue => rfl
  case isFalse => rfl

/-- Passes bytes one by one, up to the first that is not of a class, or to the end. -/
def along (p : UInt8 → Bool) (w : Walk) : Walk :=
  if _ended : w.cursor.isEof = true then w
  else if p w.cursor.current then w.pass.along p
  else w
termination_by w.cursor.bytes.length - w.cursor.position
decreasing_by
  have more := Bool.eq_false_iff.2 _ended
  rw [cursor_pass, position_advance more, bytes_advance]
  simp only [isEof, decide_eq_false_iff_not, Nat.not_le] at more
  omega

end Walk

/-- The walk of a cursor over bytes of a class. -/
def walk (c : Cursor) (p : UInt8 → Bool) : Walk :=
  Walk.along p { cursor := c }

-- ── One byte at a time ──────────────

section Steps

variable {c : Cursor} {p : UInt8 → Bool}

theorem remaining_of_isEof (ended : c.isEof = true) : c.remaining = [] :=
  List.drop_eq_nil_of_le (of_decide_eq_true ended)

/-- Where something is left, it is the next byte and what is left behind it. -/
theorem remaining_of_more (more : c.isEof = false) :
    c.remaining = c.current :: c.advance.remaining := by
  have inside : c.position < c.bytes.length := by
    simp only [isEof, decide_eq_false_iff_not, Nat.not_le] at more
    exact more
  have reads : c.current = c.bytes[c.position] := by
    rw [current, byteAt, List.getElem?_eq_getElem inside, Option.getD_some]
  rw [remaining, remaining, bytes_advance, position_advance more, reads]
  exact List.drop_eq_getElem_cons inside

/-- Nothing is moved over where no byte of the class is next. -/
theorem eatWhile_of_takeWhile_eq_nil (stopped : c.remaining.takeWhile p = []) :
    c.eatWhile p = c := by
  rw [eatWhile, stopped]
  rfl

theorem eatWhile_of_more (more : c.isEof = false) (next : p c.current = true) :
    c.eatWhile p = c.advance.eatWhile p := by
  have source := (c.follows_advance).source
  rw [eatWhile, eatWhile, remaining_of_more more, List.takeWhile_cons_of_pos next, List.length_cons,
    position_advance more, source, Nat.add_right_comm, Nat.add_assoc]

/-- The last line begins behind the last line feed, which is the first byte if no other is one. -/
theorem lastLineStart_cons (offset : Nat) (b : UInt8) (bytes : List UInt8) :
    (lineBreaks .byByte offset (b :: bytes)).lastLineStart =
      (lineBreaks .byByte (offset + 1) bytes).lastLineStart.or
        (if b = 10 then some (offset + 1) else none) := by
  have first : (ByteSearch.byByte.last? 10 [b]).map (fun i => offset + i + 1) =
      if b = 10 then some (offset + 1) else none := by
    by_cases newline : b = 10
    · rw [if_pos newline, newline]
      rfl
    · have missing : ByteSearch.byByte.last? 10 [b] = none :=
        Option.map_eq_none_iff.2 (List.idxOf?_eq_none_iff.2 fun found =>
          newline (List.mem_singleton.1 found).symm)
      rw [if_neg newline, missing, Option.map_none]
  have whole := ByteSearch.last?_append 10 [b] bytes
  show (ByteSearch.byByte.last? 10 ([b] ++ bytes)).map _ = _
  rw [whole, Option.map_or, Option.map_map, first]
  congr 2
  funext i
  show offset + (1 + i) + 1 = offset + 1 + i + 1
  omega

end Steps

-- ── Whole walks ─────────────────────

/-- **Walks.** A walk ends where moving over the class at once ends, and has passed the line feeds
among the bytes that are moved over. -/
theorem along_eq (p : UInt8 → Bool) (w : Walk) :
    w.along p =
      { cursor := w.cursor.eatWhile p
        lineFeeds := w.lineFeeds + (w.cursor.remaining.takeWhile p).count 10
        lastLineStart :=
          (lineBreaks .byByte w.cursor.position (w.cursor.remaining.takeWhile p)).lastLineStart.or
            w.lastLineStart } := by
  fun_induction Walk.along p w with
  | case1 w ended =>
      have stopped : w.cursor.remaining.takeWhile p = [] := by
        rw [remaining_of_isEof ended, List.takeWhile_nil]
      rw [eatWhile_of_takeWhile_eq_nil stopped, stopped]
      rfl
  | case2 w ended next ih =>
      have more := Bool.eq_false_iff.2 ended
      rw [ih, Walk.cursor_pass, ← eatWhile_of_more more next, remaining_of_more more,
        List.takeWhile_cons_of_pos next, lastLineStart_cons, position_advance more, Option.or_assoc]
      by_cases newline : w.cursor.current = 10
      · rw [Walk.pass, if_pos newline, if_pos newline, newline, List.count_cons_self,
          Option.some_or]
        simp only [Nat.add_assoc, Nat.add_comm 1]
      · rw [Walk.pass, if_neg newline, if_neg newline, List.count_cons_of_ne newline,
          Option.none_or]
  | case3 w ended stop =>
      have more := Bool.eq_false_iff.2 ended
      have stopped : w.cursor.remaining.takeWhile p = [] := by
        rw [remaining_of_more more, List.takeWhile_cons_of_neg stop]
      rw [eatWhile_of_takeWhile_eq_nil stopped, stopped]
      rfl

theorem cursor_walk (c : Cursor) (p : UInt8 → Bool) : (c.walk p).cursor = c.eatWhile p := by
  rw [walk, along_eq]

/-- What is reported of the way to a quote is what the walk there has passed. -/
theorem lineBreaks_eq (c : Cursor) (p : UInt8 → Bool) :
    lineBreaks .byByte c.position (c.remaining.takeWhile p) =
      ⟨Word.saturate (c.walk p).lineFeeds, (c.walk p).lastLineStart⟩ := by
  rw [walk, along_eq, Option.or_none, Nat.zero_add, ← ByteSearch.length_all]
  rfl

/-- A walk passes no more line feeds than the text has bytes. -/
theorem lineFeeds_walk_le (c : Cursor) (p : UInt8 → Bool) :
    (c.walk p).lineFeeds ≤ byteLength c.source := by
  have passed : (c.remaining.takeWhile p).count 10 ≤ (c.remaining.takeWhile p).length :=
    List.count_le_length
  have short := (List.takeWhile_prefix p (l := c.remaining)).length_le
  have left : c.remaining.length = byteLength c.source - c.position := by
    rw [remaining, List.length_drop, bytes, length_encode]
  rw [walk, along_eq, Nat.zero_add]
  show (c.remaining.takeWhile p).count 10 ≤ _
  omega

-- ── What a cursor does next ─────────

/-- What a cursor in a text does next, whatever the next operation is. It stands within the text and
is not moved back. A bulk move ends where the walk over single bytes ends, and the one to a quote
gives the line feeds that the walk passes and the offset after the last of them; their number is cut
off at the largest word, which no text of less than 4 GiB reaches. A cut leaves the cursor where it
is. It fails exactly if its bounds are out of order, out of the text or inside a character, and else
gives the text that has the bytes between them. -/
structure Behaves (find : ByteSearch) (source : String) (c : Cursor) : Prop where
  text : c.source = source.toList
  within : c.position ≤ source.utf8ByteSize
  onward : ∀ op, c.position ≤ (c.step find op).2.position
  eatWhile : ∀ p, c.step find (.eatWhile p) = (some .nothing, (c.walk p).cursor)
  newline : c.step find .eatUntilNewline = (some .nothing, (c.walk (· ≠ 10)).cursor)
  quote : ∃ passed, c.step find .eatUntilQuote =
    (some (.breaks passed), (c.walk (· ≠ 34)).cursor) ∧
    passed.count = Word.saturate (c.walk (· ≠ 34)).lineFeeds ∧
    (source.utf8ByteSize < 4294967296 → passed.count.toNat = (c.walk (· ≠ 34)).lineFeeds) ∧
    passed.lastLineStart = (c.walk (· ≠ 34)).lastLineStart
  stays : ∀ start stop, (c.step find (.slice start stop)).2 = c ∧
    (c.step find (.sliceFrom start)).2 = c
  slice : ∀ start stop, (c.step find (.slice start stop)).1 = none ↔
    stop < start ∨ source.utf8ByteSize < stop ∨
      ¬ Boundary source.toList start ∨ ¬ Boundary source.toList stop
  sliceFrom : ∀ start, (c.step find (.sliceFrom start)).1 = none ↔
    c.position < start ∨ source.utf8ByteSize < c.position ∨
      ¬ Boundary source.toList start ∨ ¬ Boundary source.toList c.position
  cut : ∀ start stop inside, (c.step find (.slice start stop)).1 = some (.text inside) →
    encode inside = ((encode source.toList).take stop).drop start

/-- Within a text, every operation does as it should. -/
theorem behaves_of_within {source : String} {c : Cursor} (text : c.source = source.toList)
    (within : c.Within) : c.Behaves .byByte source := by
  have size : byteLength source.toList = source.utf8ByteSize := byteLength_toList source
  have failed (start stop : Nat) : (c.slice? start stop).map Reading.text = none ↔
      stop < start ∨ source.utf8ByteSize < stop ∨
        ¬ Boundary source.toList start ∨ ¬ Boundary source.toList stop := by
    rw [Option.map_eq_none_iff, Cursor.slice?, text, slice?_eq_none_iff, size]
  refine
    { text := text
      within := ?_
      onward := fun op => (follows_step .byByte c op).position
      eatWhile := ?_
      newline := ?_
      quote := ?_
      stays := fun _ _ => ⟨rfl, rfl⟩
      slice := failed
      sliceFrom := fun start => failed start c.position
      cut := ?_ }
  · rw [← size, ← text]
    exact (within_iff c).1 within
  · intro p
    rw [cursor_walk]
    rfl
  · rw [step_eatUntilNewline within, cursor_walk]
  · refine ⟨_, by rw [step_eatUntilQuote within, cursor_walk, lineBreaks_eq], rfl, ?_, rfl⟩
    intro small
    have few := lineFeeds_walk_le c (· ≠ 34)
    rw [text, size] at few
    refine Word.toNat_saturate_of_le ?_
    rw [Word.largest]
    omega
  · intro start stop inside given
    obtain ⟨found, cut, answered⟩ := Option.map_eq_some_iff.1 given
    obtain rfl := Reading.text.inj answered
    rw [Cursor.slice?, text] at cut
    exact encode_of_slice? cut

end Cursor

/-- **Cursors by single bytes.** After any operations on a cursor at the start of a text, some of
which may have failed, it stands within the text, what it does next is what single bytes make of it,
and no operations that follow move it back. This is so by whatever exact search the bulk moves find
their way. -/
theorem cursor_behaves_after {find : ByteSearch} (exact_find : find.Exact) (source : String)
    (ops : List Cursor.Operation) :
    ((Cursor.ofString source).after find ops).Behaves find source ∧
      ∀ later, ((Cursor.ofString source).after find ops).position ≤
        ((Cursor.ofString source).after find (ops ++ later)).position := by
  obtain rfl := exact_find.unique ByteSearch.exact_byByte
  have text := (Cursor.follows_after .byByte (Cursor.ofString source) ops).source
  have within := Cursor.within_after (Cursor.within_ofString source) ops
  refine ⟨Cursor.behaves_of_within text within, ?_⟩
  intro later
  rw [Cursor.after_append]
  exact (Cursor.follows_after ..).position

/-- Cuts inside a character have failed before, and the way to the quote begins in the middle of
it. -/
theorem cursor_behaves_after_mixed :
    ByteSearch.byByte.Exact ∧ "é\nb\n\"c".utf8ByteSize < 4294967296 ∧
      (Cursor.ofString "é\nb\n\"c").after .byByte [.bump, .slice 0 1, .sliceFrom 0] =
        ⟨"é\nb\n\"c".toList, 1⟩ ∧
      Cursor.Behaves .byByte "é\nb\n\"c" ⟨"é\nb\n\"c".toList, 1⟩ ∧
      (Cursor.walk ⟨"é\nb\n\"c".toList, 1⟩ (· ≠ 34)).cursor =
        ⟨"é\nb\n\"c".toList, 5⟩ ∧
      (Cursor.walk ⟨"é\nb\n\"c".toList, 1⟩ (· ≠ 34)).lineFeeds = 2 ∧
      (Cursor.walk ⟨"é\nb\n\"c".toList, 1⟩ (· ≠ 34)).lastLineStart = some 5 := by
  have small : "é\nb\n\"c".utf8ByteSize < 4294967296 := by decide
  have reached : (Cursor.ofString "é\nb\n\"c").after .byByte [.bump, .slice 0 1, .sliceFrom 0] =
      ⟨"é\nb\n\"c".toList, 1⟩ := by decide
  have behaves := (cursor_behaves_after ByteSearch.exact_byByte "é\nb\n\"c"
    [.bump, .slice 0 1, .sliceFrom 0]).1
  rw [reached] at behaves
  obtain ⟨passed, done, -, count, last⟩ := behaves.quote
  have found : Cursor.step .byByte ⟨"é\nb\n\"c".toList, 1⟩ .eatUntilQuote =
      (some (.breaks ⟨2, some 5⟩), ⟨"é\nb\n\"c".toList, 5⟩) := by decide
  obtain ⟨reading, moved⟩ := Prod.mk.inj (done.symm.trans found)
  obtain rfl := Cursor.Reading.breaks.inj (Option.some.inj reading)
  exact ⟨ByteSearch.exact_byByte, small, reached, behaves, moved, (count small).symm, last.symm⟩

end LoxScan
