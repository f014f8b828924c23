import LoxScan.Proofs.ByteClasses

/-!
# One turn, one element

A sweep works on bytes and makes demands as it goes. That every one of them is met is a matter of
where its cursor stands when they are made, so the proof follows the cursor over one element. Before
a turn it stands between two texts (`Sweep.Stands`), with the line and its start as they are after
the first of them; the turn reads one element off the second, exactly the one that reading takes,
tells what is found in it, and leaves the cursor between the two again.

Within a turn the cursor may well stand inside a character. But by the time a text is cut out or a
column is taken the element has been read to its end (`Sweep.HasRead`), so the operations that make
demands are dealt with once, for all elements, and what is left of an element is how far it goes.

* **`lineStart_advance`**: line feeds that are passed all at once leave the line start where passing
  them one by one does.
* **`addToken_eq`**, **`addFault_eq`**: behind an element that is read to its end all demands are
  met.
* **`turn_eq`**: what the first byte decides is what the first character would.
* **`takes_of_endsBefore`**: one turn, one element.
-/

namespace LoxScan

open Utf8

-- ── Line feeds that are passed all at once ──

namespace Cursor

/-- Without a line feed at the back, the last line begins where it did. -/
theorem lastLineStart_append_of_not_mem (offset : Nat) {a b : List UInt8} (h : 10 ∉ b) :
    (lineBreaks .byByte offset (a ++ b)).lastLineStart =
      (lineBreaks .byByte offset a).lastLineStart := by
  have absent : ByteSearch.byByte.last? 10 b = none :=
    Option.map_eq_none_iff.2 (List.idxOf?_eq_none_iff.2 fun found => h (List.mem_reverse.1 found))
  show (ByteSearch.byByte.last? 10 (a ++ b)).map _ = (ByteSearch.byByte.last? 10 a).map _
  rw [ByteSearch.last?_append, absent, Option.map_none, Option.none_or]

theorem lastLineStart_concat_newline (offset : Nat) (a : List UInt8) :
    (lineBreaks .byByte offset (a ++ [10])).lastLineStart = some (offset + a.length + 1) := by
  show (ByteSearch.byByte.last? 10 (a ++ [10])).map _ = _
  rw [ByteSearch.last?_append]
  rfl

end Cursor

namespace Position

/-- A text without line feeds leaves the line and its start alone. -/
theorem advance_of_newline_not_mem (p : Position) {text : List Char} (h : '\n' ∉ text) :
    (p.advance text).line = p.line ∧ (p.advance text).lineStart = p.lineStart := by
  induction text generalizing p with
  | nil => exact ⟨rfl, rfl⟩
  | cons c text ih =>
      have other : c ≠ '\n' := fun feed => h (feed ▸ List.mem_cons_self)
      have stays : p.next c = ⟨p.offset + c.utf8Size, p.line, p.lineStart⟩ := if_neg other
      have later := ih (p.next c) fun inside => h (List.mem_cons_of_mem c inside)
      rw [advance_cons, later.1, later.2, stays]
      exact ⟨rfl, rfl⟩

/-- Looked for all at once, the line feeds in a text say where its last line begins. -/
theorem lineStart_advance (p : Position) (text : List Char) :
    (p.advance text).lineStart =
      ((Cursor.lineBreaks .byByte p.offset (encode text)).lastLineStart).getD p.lineStart := by
  -- From the back, for the last line is what one more character changes.
  induction text using List.reverseRecOn with
  | nil => rfl
  | append_singleton text c ih =>
      rw [advance_append, encode_append, encode_cons, encode_nil, List.append_nil]
      show ((p.advance text).next c).lineStart = _
      rw [next]
      by_cases h : c = '\n'
      · subst h
        show (p.advance text).offset + 1
          = ((Cursor.lineBreaks .byByte p.offset (encode text ++ [10])).lastLineStart).getD
            p.lineStart
        rw [Cursor.lastLineStart_concat_newline, offset_advance, length_encode]
        rfl
      · rw [if_neg h, Cursor.lastLineStart_append_of_not_mem _ (newline_not_mem_utf8EncodeChar h)]
        exact ih

end Position

/-- Counts that are cut off one by one add up to the whole count, cut off. -/
theorem Word.plus_toNat_saturate (k n : Nat) :
    (saturate k).plus (saturate n).toNat = saturate (k + n) := by
  apply UInt32.toNat_inj.1
  rw [plus, toNat_saturate, toNat_saturate, toNat_saturate, toNat_saturate]
  omega

-- ── Where a sweep stands ────────────

namespace Told

variable {ρ : Type} [Reporter ρ]

/-- Adds findings in order. -/
def addAll (told : Told ρ) (found : List Finding) : Told ρ :=
  found.foldl add told

theorem addAll_append (told : Told ρ) (found later : List Finding) :
    told.addAll (found ++ later) = (told.addAll found).addAll later :=
  List.foldl_append ..

/-- Findings that are added become tokens or reports, are counted if they are faults, and are
logged. -/
theorem addAll_eq (told : Told ρ) (found : List Finding) :
    told.addAll found =
      { tokens := told.tokens ++ (found.filterMap Finding.token?).toArray
        faults := told.faults + (found.filterMap Finding.fault?).length
        reporter := Reporter.reportAll told.reporter
          ((found.filterMap Finding.fault?).map Fault.toDiagnostic)
        events := told.events ++ (found.map Finding.event).toArray } := by
  induction found generalizing told with
  | nil => simp [addAll]
  | cons first found ih =>
      show (told.add first).addAll found = _
      rw [ih]
      cases first with
      | token t =>
          have tokens : (Finding.token t :: found).filterMap Finding.token? =
            t :: found.filterMap Finding.token? := rfl
          have faults : (Finding.token t :: found).filterMap Finding.fault? =
            found.filterMap Finding.fault? := rfl
          rw [tokens, faults]
          simp [add]
      | fault f =>
          have tokens : (Finding.fault f :: found).filterMap Finding.token? =
            found.filterMap Finding.token? := rfl
          have faults : (Finding.fault f :: found).filterMap Finding.fault? =
            f :: found.filterMap Finding.fault? := rfl
          rw [tokens, faults]
          simp [add, Nat.add_comm, Nat.add_left_comm]

end Told

namespace Sweep

variable {ρ : Type} {s t : Sweep ρ} {before taken after : List Char} {c : Char}

/-- A sweep stands between two texts: its cursor does, on the line that the first one ends on. -/
structure Stands (s : Sweep ρ) (before after : List Char) : Prop where
  cursor : s.cursor = Cursor.between before after
  line : s.line = Word.saturate (Position.origin.advance before).line
  lineStart : s.lineStart = (Position.origin.advance before).lineStart

/-- A sweep has read a text off another since the element began that is being read. -/
structure HasRead (s : Sweep ρ) (before taken after : List Char) : Prop where
  cursor : s.cursor = Cursor.between (before ++ taken) after
  start : s.start = byteLength before
  startLine : s.startLine = Word.saturate (Position.origin.advance before).line

theorem stands_ofList (source : List Char) (reporter : ρ) :
    (ofList source reporter).Stands [] source :=
  ⟨rfl, rfl, rfl⟩

/-- Over a text without line feeds only the cursor moves. -/
theorem Stands.onward (h : s.Stands before (taken ++ after)) (flat : '\n' ∉ taken)
    (cursor : t.cursor = Cursor.between (before ++ taken) after) (line : t.line = s.line)
    (lineStart : t.lineStart = s.lineStart) : t.Stands (before ++ taken) after := by
  obtain ⟨sameLine, sameStart⟩ :=
    (Position.origin.advance before).advance_of_newline_not_mem flat
  refine ⟨cursor, ?_, ?_⟩
  · rw [line, h.line, Position.advance_append, sameLine]
  · rw [lineStart, h.lineStart, Position.advance_append, sameStart]

theorem Stands.opened (h : s.Stands before (c :: after)) (ascii : c.toNat < 128) :
    s.opened.HasRead before [c] after := by
  refine ⟨?_, ?_, h.line⟩
  · show s.cursor.advance = _
    rw [h.cursor, Cursor.advance_between ascii]
  · show s.cursor.position = _
    rw [h.cursor]
    rfl

/-- An ASCII character more is read. -/
theorem HasRead.advance (h : s.HasRead before taken (c :: after)) (ascii : c.toNat < 128) :
    { s with cursor := s.cursor.advance }.HasRead before (taken ++ [c]) after := by
  refine ⟨?_, h.start, h.startLine⟩
  show s.cursor.advance = _
  rw [h.cursor, Cursor.advance_between ascii, List.append_assoc]

/-- The characters of a class are read. -/
theorem HasRead.eatWhile {p : UInt8 → Bool} {q : Char → Bool} {inside : List Char}
    (h : s.HasRead before taken (inside ++ after)) (mirrors : Mirrors p q)
    (all : ∀ c ∈ inside, q c = true) (stop : Element.Avoids q after) :
    { s with cursor := s.cursor.eatWhile p }.HasRead before (taken ++ inside) after := by
  refine ⟨?_, h.start, h.startLine⟩
  show s.cursor.eatWhile p = _
  rw [h.cursor, Cursor.eatWhile_between mirrors all stop, List.append_assoc]

/-- After the body of a string the sweep stands behind it, whatever line feeds are in it. -/
theorem stands_afterBody {body : List Char} (stands : s.Stands before (body ++ after))
    (good : '"' ∉ body) (stop : Element.Avoids (· ≠ '"') after) :
    s.afterBody.Stands (before ++ body) after := by
  have all : ∀ c ∈ body, decide (c ≠ '"') = true := by
    intro c hc
    exact decide_eq_true (ne_of_mem_of_not_mem hc good)
  have mirrors := mirrors_ne (a := '"') (by decide)
  have skipped : s.cursor.remaining.takeWhile (· ≠ 34) = encode body := by
    rw [stands.cursor, Cursor.remaining_between]
    exact mirrors.takeWhile_encode all stop
  have position : s.cursor.position = (Position.origin.advance before).offset := by
    rw [stands.cursor, Position.offset_origin_advance]
    rfl
  rw [afterBody, Cursor.eatUntilQuote_eq]
  refine ⟨?_, ?_, ?_⟩
  · show s.cursor.eatWhile (· ≠ 34) = _
    rw [stands.cursor]
    exact Cursor.eatWhile_between mirrors all stop before
  · show s.line.plus (Word.saturate
      (ByteSearch.byByte.all 10 (s.cursor.remaining.takeWhile (· ≠ 34))).length).toNat = _
    rw [skipped, ByteSearch.length_all, stands.line, Position.advance_append,
      Position.line_advance (Position.origin.advance before) body]
    exact Word.plus_toNat_saturate ..
  · show ((Cursor.lineBreaks .byByte s.cursor.position
      (s.cursor.remaining.takeWhile (· ≠ 34))).lastLineStart).getD s.lineStart = _
    rw [skipped, position, stands.lineStart, Position.advance_append,
      Position.lineStart_advance (Position.origin.advance before) body]

-- ── Operations whose demands are met ──

theorem demand_eq {d : Demand} (met : d.Met s.cursor.source) : s.demand d = .ok () :=
  if_pos met

/-- From where a cursor stands there is always something to look through, be it nothing. -/
theorem search_met (cursor : s.cursor = Cursor.between before after) :
    (Demand.search s.cursor.position).Met s.cursor.source := by
  rw [cursor]
  show byteLength before ≤ byteLength (before ++ after)
  rw [byteLength_append]
  exact Nat.le_add_right ..

theorem slice_eq (source : s.cursor.source = before ++ taken ++ after) :
    s.slice (byteLength before) (byteLength (before ++ taken)) = .ok taken := by
  have cut := slice?_append before taken after
  have met :
      (Demand.slice (byteLength before) (byteLength (before ++ taken))).Met s.cursor.source := by
    rw [source]
    refine isSome_slice?_iff.1 ?_
    rw [cut]
    rfl
  rw [slice, demand_eq met, Cursor.slice?, source, cut]
  rfl

theorem lexeme_eq (h : s.HasRead before taken after) : s.lexeme = .ok taken := by
  have source : s.cursor.source = before ++ taken ++ after := by rw [h.cursor]; rfl
  rw [lexeme, h.start, h.cursor]
  exact slice_eq source

theorem span_eq {e : Element} (h : s.HasRead before e.text after) :
    s.span = Placed.span ⟨e, Position.origin.advance before⟩ := by
  rw [span, h.start, h.cursor, Placed.span, Placed.stop_offset, Position.offset_origin_advance]
  show Span.ofRange (byteLength before) (byteLength (before ++ e.text)) = _
  rw [byteLength_append]

variable [Reporter ρ]

theorem addToken_eq {e : Element} (h : s.HasRead before e.text after) {kind : Kind}
    {literal : Option Literal} (together : kind.Carries literal) :
    s.addToken kind literal = .ok { s with told := s.told.add (.token
      (Placed.token ⟨e, Position.origin.advance before⟩ kind literal)) } := by
  have met : (Demand.token kind literal).Met s.cursor.source := together
  rw [addToken, lexeme_eq h]
  show (s.demand (.token kind literal) >>= _) = _
  rw [demand_eq met, h.startLine, span_eq h]
  rfl

theorem addFault_eq {e : Element} (h : s.HasRead before e.text after) {noticed : Position}
    (line : s.line = Word.saturate noticed.line) (lineStart : s.lineStart = noticed.lineStart)
    (within : noticed.lineStart ≤ noticed.offset) (cause : Fault.Cause) :
    s.addFault cause noticed.offset = .ok { s with told := s.told.add (.fault
      (Placed.fault ⟨e, Position.origin.advance before⟩ cause noticed)) } := by
  have met : (Demand.column s.lineStart noticed.offset).Met s.cursor.source := by
    rw [lineStart]
    exact within
  rw [addFault, columnOf, demand_eq met, lineStart, line, span_eq h]
  rfl

-- ── The first byte ──────────────────

/-- A turn takes an element off the text in which it begins, and tells what is found in it there. -/
def Takes (s : Sweep ρ) (before : List Char) (e : Element) (after : List Char) : Prop :=
  ∃ t, s.turn = .ok t ∧ t.Stands (before ++ e.text) after ∧
    t.told = s.told.addAll (Finding.ofPlaced? ⟨e, Position.origin.advance before⟩).toList

theorem lt_of_mem_spelling (p : Punctuator) : ∀ c ∈ p.spelling.toList, c.toNat < 128 := by
  have all : p.spelling.toList.all (fun c => decide (c.toNat < 128)) = true := by
    cases p <;> decide
  intro c hc
  exact of_decide_eq_true (List.all_eq_true.1 all c hc)

theorem ofByte?_eq {c : Char} {b : UInt8} (hb : b ∈ String.utf8EncodeChar c) :
    Punctuator.ofByte? b = Punctuator.ofChar? c := by
  rw [Punctuator.ofByte?]
  by_cases small : c.toNat < 128
  · rw [utf8EncodeChar_of_lt small] at hb
    obtain rfl := List.mem_singleton.1 hb
    have value : (UInt8.ofNat c.toNat).toNat = c.toNat := by
      rw [UInt8.toNat_ofNat']
      omega
    have low : UInt8.ofNat c.toNat < 128 := by
      rw [UInt8.lt_iff_toNat_lt, value]
      exact small
    rw [if_pos low, value, Char.ofNat_toNat]
  · have high : ¬ b < 128 := by
      have least := le_toNat_of_mem_utf8EncodeChar (by omega) hb
      rw [UInt8.lt_iff_toNat_lt]
      exact Nat.not_lt.2 least
    rw [if_neg high]
    cases spelled : Punctuator.ofChar? c with
    | none => rfl
    | some p =>
        have inside : c ∈ p.spelling.toList := by
          rw [Punctuator.spelling_of_ofChar? spelled]
          exact List.mem_singleton.2 rfl
        exact absurd (lt_of_mem_spelling p c inside) small

/-- What the first byte decides is what the first character would. -/
theorem turn_eq (h : s.Stands before (c :: after)) :
    s.turn =
      if c = '\n' then .ok s.opened.newline
      else if c = ' ' ∨ c = '\r' ∨ c = '\t' then .ok s.opened
      else if c = '"' then s.opened.string
      else if c.isDigit = true then s.opened.number
      else if isWordStart c = true then s.opened.word
      else if c = '/' then s.opened.slash
      else
        match Punctuator.ofChar? c with
        | some p => s.opened.punctuator p
        | none => s.opened.stray := by
  obtain ⟨b, tail, lead, -, -⟩ := exists_lead c
  have hb : b ∈ String.utf8EncodeChar c := lead ▸ List.mem_cons_self
  have is (a : Char) (ascii : a.toNat < 128) : b = UInt8.ofNat a.toNat ↔ c = a :=
    eq_ofNat_iff_of_mem ascii hb
  have newline : b = 10 ↔ c = '\n' := is '\n' (by decide)
  have quote : b = 34 ↔ c = '"' := is '"' (by decide)
  have slash : b = 47 ↔ c = '/' := is '/' (by decide)
  have space : b = 32 ↔ c = ' ' := is ' ' (by decide)
  have return_ : b = 13 ↔ c = '\r' := is '\r' (by decide)
  have tab : b = 9 ↔ c = '\t' := is '\t' (by decide)
  have blank : Byte.isBlank b = true ↔ c = ' ' ∨ c = '\r' ∨ c = '\t' := by
    rw [Byte.isBlank, Bool.or_eq_true, Bool.or_eq_true, beq_iff_eq, beq_iff_eq, beq_iff_eq, space,
      return_, tab, or_assoc]
  rw [turn, h.cursor, Cursor.current_between_cons lead, dispatch, mirrors_isDigit c b hb,
    mirrors_isWordStart c b hb, ofByte?_eq hb]
  exact if_congr newline rfl (if_congr blank rfl (if_congr quote rfl (if_congr Iff.rfl rfl
    (if_congr Iff.rfl rfl (if_congr slash rfl rfl)))))

-- ── Elements that are told ──────────

section Told

variable {e : Element} {u : Sweep ρ}

/-- A turn that ends in a token, with the element read to its end. -/
theorem takes_token {kind : Kind} {literal : Option Literal}
    (turn : s.turn = u.addToken kind literal)
    (told : u.told = s.told) (read : u.HasRead before e.text after)
    (stands : u.Stands (before ++ e.text) after)
    (together : kind.Carries literal)
    (found : Finding.ofPlaced? ⟨e, Position.origin.advance before⟩ =
      some (.token (Placed.token ⟨e, Position.origin.advance before⟩ kind literal))) :
    s.Takes before e after := by
  rw [addToken_eq read together, told] at turn
  refine ⟨_, turn, ⟨stands.cursor, stands.line, stands.lineStart⟩, ?_⟩
  rw [found]
  rfl

/-- A turn that ends in a fault, with the element read to its end. -/
theorem takes_fault {cause : Fault.Cause} {noticed : Position}
    (turn : s.turn = u.addFault cause noticed.offset) (told : u.told = s.told)
    (read : u.HasRead before e.text after) (stands : u.Stands (before ++ e.text) after)
    (line : u.line = Word.saturate noticed.line) (lineStart : u.lineStart = noticed.lineStart)
    (within : noticed.lineStart ≤ noticed.offset)
    (found : Finding.ofPlaced? ⟨e, Position.origin.advance before⟩ =
      some (.fault (Placed.fault ⟨e, Position.origin.advance before⟩ cause noticed))) :
    s.Takes before e after := by
  rw [addFault_eq read line lineStart within, told] at turn
  refine ⟨_, turn, ⟨stands.cursor, stands.line, stands.lineStart⟩, ?_⟩
  rw [found]
  rfl

end Told

-- ── Punctuators and comments ────────

theorem turn_of_ofChar? {p : Punctuator} (h : s.Stands before (c :: after))
    (stands : Punctuator.ofChar? c = some p) :
    s.turn = if p = .slash then s.opened.slash else s.opened.punctuator p := by
  rw [turn_eq h]
  unfold Punctuator.ofChar? at stands
  split at stands <;> cases stands <;> rfl

/-- A slash that no slash follows is a punctuator. -/
theorem slash_of_avoids (read : s.HasRead before taken after)
    (stop : Element.Avoids (· == '/') after) : s.slash = s.addToken (.punctuator .slash) none := by
  have other : s.cursor.current ≠ 47 := by
    rw [read.cursor]
    exact Cursor.current_between_ne (a := '/') (by decide) (by decide) stop
  rw [slash, if_neg other]

theorem punctuator_of_avoids {p : Punctuator} (read : s.HasRead before taken after)
    (h : p.withEqual? ≠ none → Element.Avoids (· == '=') after) :
    s.punctuator p = s.addToken (.punctuator p) none := by
  rw [punctuator]
  split
  case h_1 longer hp =>
    have stop := h (by rw [hp]; exact Option.some_ne_none longer)
    have other : s.cursor.current ≠ 61 := by
      rw [read.cursor]
      exact Cursor.current_between_ne (a := '=') (by decide) (by decide) stop
    rw [if_neg other]
  case h_2 => rfl

theorem punctuator_equal {p longer : Punctuator} (read : s.HasRead before taken ('=' :: after))
    (h : p.withEqual? = some longer) :
    s.punctuator p =
      { s with cursor := s.cursor.advance }.addToken (.punctuator longer) none := by
  have equal : s.cursor.current = 61 := by
    rw [read.cursor]
    exact Cursor.current_between_of_ascii (a := '=') (by decide) ..
  simp only [punctuator, h, if_pos equal]

theorem newline_not_mem_spelling (p : Punctuator) : '\n' ∉ p.spelling.toList := by
  cases p <;> decide

theorem takes_punctuator {p : Punctuator}
    (h : s.Stands before ((Element.punctuator p).text ++ after))
    (ends : (Element.punctuator p).EndsBefore after) : s.Takes before (.punctuator p) after := by
  obtain ⟨noEqual, noSlash⟩ := ends
  have flat : '\n' ∉ (Element.punctuator p).text := newline_not_mem_spelling p
  have ascii : ∀ c ∈ (Element.punctuator p).text, c.toNat < 128 := lt_of_mem_spelling p
  have together : (Kind.punctuator p).Carries none := rfl
  rcases Element.spelling_cases p with
    ⟨c, spelled, stands⟩ | ⟨q, c, spelled, stands, notSlash, longer⟩
  · have text : (Element.punctuator p).text = [c] := spelled
    rw [text] at h flat ascii
    have read := h.opened (ascii c (List.mem_singleton.2 rfl))
    have turn : s.turn = s.opened.addToken (.punctuator p) none := by
      rw [turn_of_ofChar? h stands]
      split
      case isTrue slash =>
        subst slash
        exact slash_of_avoids read (noSlash rfl)
      case isFalse => exact punctuator_of_avoids read noEqual
    rw [← text] at read h flat
    exact takes_token turn rfl read (h.onward flat read.cursor rfl rfl) together rfl
  · have text : (Element.punctuator p).text = [c] ++ ['='] := spelled
    rw [text] at h flat ascii
    have read := h.opened (ascii c List.mem_cons_self)
    have turn : s.turn =
        { s.opened with cursor := s.opened.cursor.advance }.addToken (.punctuator p) none := by
      rw [turn_of_ofChar? h stands, if_neg notSlash]
      exact punctuator_equal read longer
    have whole := read.advance (by decide)
    rw [← text] at whole h flat
    exact takes_token turn rfl whole (h.onward flat whole.cursor rfl rfl) together rfl

theorem takes_comment {body : List Char}
    (h : s.Stands before ((Element.comment body).text ++ after))
    (good : '\n' ∉ body) (ends : (Element.comment body).EndsBefore after) :
    s.Takes before (.comment body) after := by
  have slash : s.turn = s.opened.slash := turn_of_ofChar? (p := .slash) h rfl
  have read : s.opened.HasRead before ['/'] ('/' :: body ++ after) := h.opened (by decide)
  have second : s.opened.cursor.current = 47 := by
    rw [read.cursor]
    exact Cursor.current_between_of_ascii (a := '/') (by decide) ..
  have flat : '\n' ∉ '/' :: body := List.not_mem_cons_of_ne_of_not_mem (by decide) good
  have all : ∀ c ∈ '/' :: body, decide (c ≠ '\n') = true := by
    intro c hc
    exact decide_eq_true (ne_of_mem_of_not_mem hc flat)
  have whole := read.eatWhile (mirrors_ne (a := '\n') (by decide)) all ends
  have onward : '\n' ∉ (Element.comment body).text :=
    List.not_mem_cons_of_ne_of_not_mem (by decide) flat
  have within : s.opened.cursor.Within := (Cursor.within_iff _).2 (search_met read.cursor)
  refine ⟨{ s.opened with cursor := s.opened.cursor.eatWhile (· ≠ 10) }, ?_,
    h.onward onward whole.cursor rfl rfl, rfl⟩
  rw [slash, Sweep.slash, if_pos second, demand_eq (search_met read.cursor),
    Cursor.eatUntilNewline_eq within]
  rfl

-- ── Strings ─────────────────────────

/-- The value of a string is what is between its quotes. -/
theorem closeString_eq {body : List Char} (read : s.HasRead before (['"'] ++ body) ('"' :: after)) :
    s.closeString = { s with cursor := s.cursor.advance }.addToken .string
      (some (.string (String.ofList body))) := by
  have past : s.cursor.advance = Cursor.between (before ++ (['"'] ++ body ++ ['"'])) after :=
    (read.advance (by decide)).cursor
  have start : s.start + 1 = byteLength (before ++ ['"']) := by
    rw [read.start, byteLength_append]
    rfl
  have stop : s.cursor.advance.position - 1 = byteLength (before ++ ['"'] ++ body) := by
    rw [past, Cursor.position_between, ← List.append_assoc, ← List.append_assoc,
      byteLength_append (before ++ ['"'] ++ body)]
    rfl
  have source : s.cursor.advance.source = before ++ ['"'] ++ body ++ ('"' :: after) := by
    rw [past, Cursor.source_between]
    simp
  rw [closeString, start]
  show ({ s with cursor := s.cursor.advance }.slice _ (s.cursor.advance.position - 1) >>= _) = _
  rw [stop, slice_eq (s := { s with cursor := s.cursor.advance }) source]
  rfl

theorem takes_string {body : List Char} (h : s.Stands before ((Element.string body).text ++ after))
    (good : '"' ∉ body) : s.Takes before (.string body) after := by
  have text : (Element.string body).text = ['"'] ++ body ++ ['"'] := rfl
  have flat : '\n' ∉ ['"'] := by decide
  rw [text, List.append_assoc, List.append_assoc] at h
  have opened := h.opened (by decide)
  have string : s.turn = s.opened.string := turn_eq h
  have inner := stands_afterBody (h.onward flat opened.cursor rfl rfl) good
    (Element.avoids_cons (by decide))
  have read : s.opened.afterBody.HasRead before (['"'] ++ body) ('"' :: after) :=
    ⟨by rw [inner.cursor, List.append_assoc]; rfl, opened.start, opened.startLine⟩
  have whole := read.advance (by decide)
  have more : ¬ s.opened.afterBody.cursor.isEof = true := by
    rw [inner.cursor, List.singleton_append, Cursor.isEof_between_cons]
    exact Bool.false_ne_true
  have turn : s.turn = { s.opened.afterBody with
      cursor := s.opened.afterBody.cursor.advance }.addToken .string
        (some (.string (String.ofList body))) := by
    rw [string, Sweep.string, demand_eq (search_met opened.cursor), ← closeString_eq read]
    exact if_neg more
  have closed := inner.onward flat (t := { s.opened.afterBody with
    cursor := s.opened.afterBody.cursor.advance }) (by rw [whole.cursor]; simp) rfl rfl
  rw [List.append_assoc, List.append_assoc, ← List.append_assoc ['"'], ← text] at closed
  rw [← text] at whole
  exact takes_token turn rfl whole closed (Eq.refl true) rfl

theorem takes_openString {body : List Char}
    (h : s.Stands before ((Element.openString body).text ++ after)) (good : '"' ∉ body)
    (ends : (Element.openString body).EndsBefore after) :
    s.Takes before (.openString body) after := by
  obtain rfl : after = [] := ends
  have text : (Element.openString body).text = ['"'] ++ body := rfl
  have flat : '\n' ∉ ['"'] := by decide
  rw [text, List.append_assoc] at h
  have opened := h.opened (by decide)
  have string : s.turn = s.opened.string := turn_eq h
  have inner := stands_afterBody (h.onward flat opened.cursor rfl rfl) good (Element.avoids_nil _)
  rw [List.append_assoc, ← text] at inner
  have read : s.opened.afterBody.HasRead before (Element.openString body).text [] :=
    ⟨inner.cursor, opened.start, opened.startLine⟩
  have ended : s.opened.afterBody.cursor.isEof = true := by
    rw [inner.cursor, Cursor.isEof_between_nil]
  have stop : s.opened.afterBody.cursor.position =
      (Position.origin.advance (before ++ (Element.openString body).text)).offset := by
    rw [inner.cursor, Cursor.position_between, Position.offset_origin_advance]
  have turn : s.turn = s.opened.afterBody.addFault .unterminatedString
      (Position.origin.advance (before ++ (Element.openString body).text)).offset := by
    rw [string, Sweep.string, demand_eq (search_met opened.cursor), ← stop]
    exact if_pos ended
  refine takes_fault turn rfl read inner inner.line inner.lineStart
    (Position.lineStart_le_offset (Nat.le_refl 0) _) ?_
  rw [Position.advance_append]
  rfl

-- ── Numbers and words ───────────────

section Numbers

variable {d : Char} {whole fraction t : List Char}

theorem afterNumber_whole (all : ∀ c ∈ whole, c.isDigit = true)
    (ends : (Element.number (d :: whole) []).EndsBefore after) (before : List Char) :
    afterNumber (Cursor.between before (whole ++ after)) =
      Cursor.between (before ++ whole) after := by
  obtain ⟨stop, noFraction⟩ := ends
  have digits := Cursor.eatWhile_between mirrors_isDigit all stop before
  rw [afterNumber, digits]
  refine if_neg ?_
  intro point
  rw [Bool.and_eq_true, decide_eq_true_iff] at point
  obtain ⟨dot, digit⟩ := point
  obtain ⟨rest, rfl⟩ := (Cursor.current_between_eq_iff (a := '.') (by decide) (by decide)).1 dot
  rw [Cursor.peek_between (by decide)] at digit
  obtain ⟨e, more, rfl, he⟩ := (Cursor.current_between_iff mirrors_isDigit (by decide)).1 digit
  rw [noFraction e more rfl] at he
  exact Bool.false_ne_true he

theorem afterNumber_fraction {e : Char} (all : ∀ c ∈ whole, c.isDigit = true)
    (digits : ∀ c ∈ e :: fraction, c.isDigit = true) (ends : Element.Avoids Char.isDigit after)
    (before : List Char) :
    afterNumber (Cursor.between before (whole ++ '.' :: e :: fraction ++ after)) =
      Cursor.between (before ++ (whole ++ '.' :: e :: fraction)) after := by
  have stop : Element.Avoids Char.isDigit ('.' :: (e :: fraction ++ after)) :=
    Element.avoids_cons (by decide)
  have first := Cursor.eatWhile_between mirrors_isDigit all stop before
  rw [List.append_assoc, List.cons_append, afterNumber, first]
  have dot : (Cursor.between (before ++ whole) ('.' :: (e :: fraction ++ after))).current = 46 :=
    Cursor.current_between_of_ascii (a := '.') (by decide) ..
  have digit : Byte.isDigit
      (Cursor.between (before ++ whole) ('.' :: (e :: fraction ++ after))).peek = true := by
    rw [Cursor.peek_between (by decide)]
    exact (Cursor.current_between_iff mirrors_isDigit (by decide)).2
      ⟨e, fraction ++ after, rfl, digits e List.mem_cons_self⟩
  rw [if_pos (by rw [dot, digit]; rfl), Cursor.advance_between (by decide),
    Cursor.eatWhile_between mirrors_isDigit digits ends]
  simp

end Numbers

/-- The value of a number is that of the digits before its point and of those after it. -/
theorem valueOf_text {whole fraction : List Char}
    (good : (Element.number whole fraction).WellFormed) :
    valueOf (Element.number whole fraction).text =
      .number (Decimal.ofDigits whole fraction).toDouble := by
  obtain ⟨-, wholeDigits, -⟩ := good
  cases fraction with
  | nil =>
      have stop := Element.avoids_nil Char.isDigit
      have taken := Element.takeWhile_append_of_avoids wholeDigits stop
      have left := Element.dropWhile_append_of_avoids wholeDigits stop
      rw [List.append_nil] at taken left
      rw [valueOf, Element.text, taken, left]
      rfl
  | cons e fraction =>
      have stop : Element.Avoids Char.isDigit ('.' :: e :: fraction) :=
        Element.avoids_cons (by decide)
      rw [valueOf, Element.text, Element.takeWhile_append_of_avoids wholeDigits stop,
        Element.dropWhile_append_of_avoids wholeDigits stop]
      rfl

theorem newline_not_mem_number {whole fraction : List Char}
    (good : (Element.number whole fraction).WellFormed) :
    '\n' ∉ (Element.number whole fraction).text := by
  obtain ⟨-, wholeDigits, fractionDigits⟩ := good
  have first : '\n' ∉ whole := fun inside => absurd (wholeDigits '\n' inside) (by decide)
  cases fraction with
  | nil => exact first
  | cons e fraction =>
      have later :
        '\n' ∉ e :: fraction := fun inside => absurd (fractionDigits '\n' inside) (by decide)
      intro inside
      rcases List.mem_append.1 inside with inside | inside
      · exact first inside
      · exact later (List.mem_of_ne_of_mem (by decide) inside)

theorem turn_of_isDigit (h : s.Stands before (c :: after)) (digit : c.isDigit = true) :
    s.turn = s.opened.number := by
  have other (a : Char) (ha : a.isDigit = false) : c ≠ a := by
    rintro rfl
    exact Bool.false_ne_true (ha.symm.trans digit)
  rw [turn_eq h, if_neg (other '\n' (by decide)), if_neg,
    if_neg (other '"' (by decide)), if_pos digit]
  rintro (rfl | rfl | rfl) <;> exact absurd digit (by decide)

theorem turn_of_isWordStart (h : s.Stands before (c :: after)) (start : isWordStart c = true) :
    s.turn = s.opened.word := by
  have other (a : Char) (ha : isWordStart a = false) : c ≠ a := by
    rintro rfl
    exact Bool.false_ne_true (ha.symm.trans start)
  rw [turn_eq h, if_neg (other '\n' (by decide)), if_neg, if_neg (other '"' (by decide)),
    Element.isDigit_eq_false_of_isWordStart start, if_neg Bool.false_ne_true, if_pos start]
  rintro (rfl | rfl | rfl) <;> exact absurd start (by decide)

theorem takes_number {whole fraction : List Char}
    (h : s.Stands before ((Element.number whole fraction).text ++ after))
    (good : (Element.number whole fraction).WellFormed)
    (ends : (Element.number whole fraction).EndsBefore after) :
    s.Takes before (.number whole fraction) after := by
  have flat := newline_not_mem_number good
  have value := valueOf_text good
  obtain ⟨d, t, text, digit, numeral⟩ : ∃ d t,
    (Element.number whole fraction).text = d :: t ∧
      d.isDigit = true ∧ ∀ before, afterNumber (Cursor.between before (t ++ after)) =
        Cursor.between (before ++ t) after := by
    obtain ⟨nonempty, wholeDigits, fractionDigits⟩ := good
    obtain ⟨d, whole, rfl⟩ := List.exists_cons_of_ne_nil nonempty
    have inside : ∀ c ∈ whole, c.isDigit = true :=
      fun c hc => wholeDigits c (List.mem_cons_of_mem d hc)
    cases fraction with
    | nil =>
        exact ⟨d, whole, rfl, wholeDigits d List.mem_cons_self, afterNumber_whole inside ends⟩
    | cons e fraction =>
        exact ⟨d, _, rfl, wholeDigits d List.mem_cons_self,
          afterNumber_fraction inside fractionDigits ends⟩
  rw [text] at h
  have opened := h.opened (lt_of_isDigit digit)
  have read : { s.opened with cursor := afterNumber s.opened.cursor }.HasRead before
      (Element.number whole fraction).text after := by
    refine ⟨?_, opened.start, opened.startLine⟩
    show afterNumber s.opened.cursor = _
    have moved := numeral (before ++ [d])
    rw [List.append_assoc] at moved
    rw [opened.cursor, text]
    exact moved
  have turn : s.turn = { s.opened with cursor := afterNumber s.opened.cursor }.addToken .number
      (some (.number (Decimal.ofDigits whole fraction).toDouble)) := by
    rw [turn_of_isDigit h digit, Sweep.number]
    show ({ s.opened with cursor := afterNumber s.opened.cursor }.lexeme >>= _) = _
    rw [lexeme_eq read, ← value]
    rfl
  rw [← text] at h
  exact takes_token turn rfl read (h.onward flat read.cursor rfl rfl) (Eq.refl true) rfl

theorem takes_word {letters : List Char}
    (h : s.Stands before ((Element.word letters).text ++ after))
    (good : (Element.word letters).WellFormed) (ends : (Element.word letters).EndsBefore after) :
    s.Takes before (.word letters) after := by
  obtain ⟨first, rest, rfl, start, inside⟩ := good
  have text : (Element.word (first :: rest)).text = [first] ++ rest := rfl
  have flat : '\n' ∉ (Element.word (first :: rest)).text := by
    intro mem
    rcases List.mem_cons.1 mem with rfl | mem
    · exact absurd start (by decide)
    · exact absurd (inside '\n' mem) (by decide)
  have opened := Stands.opened h (lt_of_isWordStart start)
  have read := opened.eatWhile mirrors_isWordRest inside ends
  rw [← text] at read
  have turn : s.turn = { s.opened with cursor := s.opened.cursor.eatWhile Byte.isWordRest }.addToken
      (Kind.ofWord (String.ofList (first :: rest))) none := by
    rw [turn_of_isWordStart h start, Sweep.word]
    show ({ s.opened with cursor := s.opened.cursor.eatWhile Byte.isWordRest }.lexeme >>= _) = _
    rw [lexeme_eq read]
    rfl
  exact takes_token turn rfl read (h.onward flat read.cursor rfl rfl) (Kind.carries_ofWord _) rfl

-- ── Blanks and characters that begin nothing ──

theorem takes_blank (h : s.Stands before ((Element.blank c).text ++ after))
    (good : (Element.blank c).WellFormed) : s.Takes before (.blank c) after := by
  have text : (Element.blank c).text = [c] := rfl
  have blank := Element.isBlank_iff.1 good
  have ascii : c.toNat < 128 := by
    rcases blank with rfl | rfl | rfl | rfl <;> decide
  rw [text] at h
  have opened := h.opened ascii
  by_cases newline : c = '\n'
  · subst newline
    have turn : s.turn = .ok s.opened.newline := turn_eq h
    refine ⟨_, turn, ⟨opened.cursor, ?_, ?_⟩, rfl⟩
    · show s.line.plus 1 = _
      rw [h.line, Word.plus_saturate, Position.advance_append, Nat.add_comm]
      rfl
    · show s.opened.cursor.position = _
      rw [opened.cursor, text, Cursor.position_between, ← Position.offset_origin_advance,
        Position.advance_append]
      rfl
  · have other : c = ' ' ∨ c = '\r' ∨ c = '\t' := by
      rcases blank with space | carriage | tab | feed
      · exact Or.inl space
      · exact Or.inr (Or.inl carriage)
      · exact Or.inr (Or.inr tab)
      · exact absurd feed newline
    have turn : s.turn = .ok s.opened := by
      rw [turn_eq h, if_neg newline, if_pos other]
    have flat : '\n' ∉ [c] := fun inside => newline (List.mem_singleton.1 inside).symm
    exact ⟨_, turn, h.onward flat opened.cursor rfl rfl, rfl⟩

theorem takes_stray (h : s.Stands before ((Element.stray c).text ++ after))
    (good : (Element.stray c).WellFormed) : s.Takes before (.stray c) after := by
  obtain ⟨notBlank, notQuote, notDigit, notWord, noPunctuator⟩ := good
  have notNewline : c ≠ '\n' := by
    rintro rfl
    exact absurd notBlank (by decide)
  have notSpace : ¬ (c = ' ' ∨ c = '\r' ∨ c = '\t') := by
    rintro (rfl | rfl | rfl) <;> exact absurd notBlank (by decide)
  have notSlash : c ≠ '/' := by
    rintro rfl
    exact absurd noPunctuator (by decide)
  have cursor : s.opened.cursor.eatWhile Byte.isContinuation =
      Cursor.between (before ++ (Element.stray c).text) after := by
    show s.cursor.advance.eatWhile _ = _
    rw [h.cursor]
    exact Cursor.eatWhile_isContinuation_between before c after
  have start : s.opened.start = (Position.origin.advance before).offset := by
    show s.cursor.position = _
    rw [h.cursor, Cursor.position_between, Position.offset_origin_advance]
  have read :
    { s.opened with cursor := s.opened.cursor.eatWhile Byte.isContinuation }.HasRead before
      (Element.stray c).text after :=
    ⟨cursor, start.trans (Position.offset_origin_advance before), h.line⟩
  have turn : s.turn = { s.opened with
      cursor := s.opened.cursor.eatWhile Byte.isContinuation }.addFault (.unexpectedCharacter c)
        (Position.origin.advance before).offset := by
    rw [turn_eq h, if_neg notNewline, if_neg notSpace, if_neg notQuote, notDigit,
      if_neg Bool.false_ne_true, notWord, if_neg Bool.false_ne_true, if_neg notSlash, noPunctuator,
      ← start]
    show ({ s.opened with cursor := s.opened.cursor.eatWhile Byte.isContinuation }.lexeme >>= _) = _
    rw [lexeme_eq read]
    rfl
  have flat : '\n' ∉ [c] := fun inside => notNewline (List.mem_singleton.1 inside).symm
  exact takes_fault turn rfl read (h.onward flat cursor rfl rfl) h.line h.lineStart
    (Position.lineStart_le_offset (Nat.le_refl 0) before) rfl

-- ── One turn, one element ───────────

/-- **One turn.** An element that ends before a text is what a turn takes off the front of the
two. -/
theorem takes_of_endsBefore {e : Element} (h : s.Stands before (e.text ++ after))
    (good : e.WellFormed) (ends : e.EndsBefore after) : s.Takes before e after := by
  cases e with
  | punctuator p => exact takes_punctuator h ends
  | string body => exact takes_string h good
  | number whole fraction => exact takes_number h good ends
  | word letters => exact takes_word h good ends
  | comment body => exact takes_comment h good ends
  | blank c => exact takes_blank h good
  | openString body => exact takes_openString h good ends
  | stray c => exact takes_stray h good

end Sweep

end LoxScan
