import LoxScan.Scan.Element
import Mathlib.Data.List.TakeWhile

/-!
# Where an element ends

Reading takes one element after another off the front of a text, and each step decides two things at
once: which element it is, and where it stops. Both can be said without reading. An element is
`WellFormed` when its characters are those of its class, and it `EndsBefore` a text when that text
does not go on with it: no equals sign after `!`, no digit after a number, no letter or digit after
a word. Two characters are the most that is looked at, for a point that a digit follows.

These two conditions are all there is to a step, so every theorem about reading starts from them and
never from the dispatch on the first character.

* **`next_eq_of_endsBefore`**: a well-formed element that ends before a text is what is read off the
  front of the two together.
* **`whole_next`**: whatever is read is well-formed, and ends there.
* **`tile_eq_iff`**: so the elements of a text are the only row of well-formed elements that makes
  up the text and in which each ends before the next (`Tiled`).
-/

namespace LoxScan

namespace Element

-- ── Well-formed elements and their ends ──

/-- The characters of an element are those of its class. A stray character begins nothing else. -/
def WellFormed : Element → Prop
  | punctuator _ => True
  | string body => '"' ∉ body
  | number whole fraction =>
    whole ≠ [] ∧ (∀ d ∈ whole, d.isDigit = true) ∧ ∀ d ∈ fraction, d.isDigit = true
  | word letters =>
    ∃ c rest, letters = c :: rest ∧ isWordStart c = true ∧ ∀ l ∈ rest, isWordRest l = true
  | comment body => '\n' ∉ body
  | blank c => isBlank c = true
  | openString body => '"' ∉ body
  | stray c =>
    isBlank c = false ∧ c ≠ '"' ∧ c.isDigit = false ∧ isWordStart c = false ∧
      Punctuator.ofChar? c = none

/-- A text does not begin with a character of a class. -/
def Avoids (p : Char → Bool) (after : List Char) : Prop :=
  ∀ c, after.head? = some c → p c = false

/-- The text after an element does not go on with it. An open string goes on with anything. -/
def EndsBefore : Element → List Char → Prop
  | punctuator p, after =>
    (p.withEqual? ≠ none → Avoids (· == '=') after) ∧
      (p = .slash → Avoids (· == '/') after)
  | number _ [], after =>
    Avoids Char.isDigit after ∧ ∀ d more, after = '.' :: d :: more → d.isDigit = false
  | number _ (_ :: _), after => Avoids Char.isDigit after
  | word _, after => Avoids isWordRest after
  | comment _, after => Avoids (· ≠ '\n') after
  | openString _, after => after = []
  | string _, _ | blank _, _ | stray _, _ => True

theorem avoids_nil (p : Char → Bool) : Avoids p [] := by
  intro c h
  exact nomatch h

theorem avoids_cons {p : Char → Bool} {c : Char} {after : List Char} (h : p c = false) :
    Avoids p (c :: after) := by
  intro d hd
  obtain rfl := Option.some.inj hd
  exact h

theorem avoids_dropWhile (p : Char → Bool) (text : List Char) : Avoids p (text.dropWhile p) := by
  intro c h
  have head := List.head?_dropWhile_not p text
  rw [h] at head
  exact head

/-- Every element ends before the end of the text. -/
theorem endsBefore_nil (e : Element) : e.EndsBefore [] := by
  cases e with
  | punctuator p => exact ⟨fun _ => avoids_nil _, fun _ => avoids_nil _⟩
  | number whole fraction =>
      cases fraction with
      | nil => exact ⟨avoids_nil _, fun _ _ h => nomatch h⟩
      | cons d fraction => exact avoids_nil _
  | word letters => exact avoids_nil _
  | comment body => exact avoids_nil _
  | openString body => rfl
  | string body => trivial
  | blank c => trivial
  | stray c => trivial

theorem WellFormed.text_ne_nil {e : Element} (good : e.WellFormed) : e.text ≠ [] := by
  cases e with
  | punctuator p => cases p <;> decide
  | number whole fraction =>
      obtain ⟨nonempty, -, -⟩ := good
      cases fraction with
      | nil => exact nonempty
      | cons d fraction => simp [text]
  | word letters =>
      obtain ⟨c, rest, rfl, -, -⟩ := good
      exact List.cons_ne_nil _ _
  | _ => simp [text]

-- ── Runs of a class ─────────────────

section Runs

variable {p : Char → Bool} {inside after : List Char}

theorem takeWhile_append_of_avoids (h : ∀ c ∈ inside, p c = true) (stop : Avoids p after) :
    (inside ++ after).takeWhile p = inside := by
  rw [List.takeWhile_append_of_pos h]
  cases after with
  | nil => simp
  | cons c after => rw [List.takeWhile_cons_of_neg (by simp [stop c rfl]), List.append_nil]

theorem dropWhile_append_of_avoids (h : ∀ c ∈ inside, p c = true) (stop : Avoids p after) :
    (inside ++ after).dropWhile p = after := by
  rw [List.dropWhile_append_of_pos h]
  cases after with
  | nil => rfl
  | cons c after => rw [List.dropWhile_cons_of_neg (by simp [stop c rfl])]

end Runs

-- ── The first character decides ─────

theorem isBlank_iff {c : Char} :
    isBlank c = true ↔ c = ' ' ∨ c = '\r' ∨ c = '\t' ∨ c = '\n' := by
  simp [isBlank, or_assoc]

theorem next_of_isBlank {c : Char} (h : isBlank c = true) (rest : List Char) :
    next c rest = (blank c, rest) := by
  rw [next, if_pos h]

theorem next_quote (rest : List Char) : next '"' rest = nextString rest :=
  rfl

theorem next_slash (rest : List Char) : next '/' rest = nextSlash rest :=
  rfl

theorem next_of_isDigit {c : Char} (h : c.isDigit = true) (rest : List Char) :
    next c rest = nextNumber c rest := by
  have notBlank : ¬ isBlank c = true := by
    intro blank
    rcases isBlank_iff.1 blank with rfl | rfl | rfl | rfl <;> exact absurd h (by decide)
  have notQuote : c ≠ '"' := by
    rintro rfl
    exact absurd h (by decide)
  rw [next, if_neg notBlank, if_neg notQuote, if_pos h]

theorem isWordStart_iff {c : Char} :
    isWordStart c = true ↔ ('A' ≤ c ∧ c ≤ 'Z') ∨
      ('a' ≤ c ∧ c ≤ 'z') ∨ c = '_' := by
  show (decide (_ ∧ _) || (decide _ && decide _) || _) = true ↔ _
  rw [Bool.or_eq_true, Bool.or_eq_true, Bool.and_eq_true, decide_eq_true_iff, decide_eq_true_iff,
    decide_eq_true_iff, beq_iff_eq, or_assoc]
  rfl

theorem isDigit_eq_false_of_isWordStart {c : Char} (h : isWordStart c = true) :
    c.isDigit = false := by
  by_contra digit
  have low : c ≤ '9' := by
    rw [Bool.not_eq_false, Char.isDigit, Bool.and_eq_true] at digit
    exact of_decide_eq_true digit.2
  rcases isWordStart_iff.1 h with ⟨upper, -⟩ | ⟨lower, -⟩ | rfl
  · exact absurd (Char.le_trans upper low) (by decide)
  · exact absurd (Char.le_trans lower low) (by decide)
  · exact absurd low (by decide)

theorem next_of_isWordStart {c : Char} (h : isWordStart c = true) (rest : List Char) :
    next c rest = nextWord c rest := by
  have notBlank : ¬ isBlank c = true := by
    intro blank
    rcases isBlank_iff.1 blank with rfl | rfl | rfl | rfl <;> exact absurd h (by decide)
  have notQuote : c ≠ '"' := by
    rintro rfl
    exact absurd h (by decide)
  rw [next, if_neg notBlank, if_neg notQuote, isDigit_eq_false_of_isWordStart h,
    if_neg Bool.false_ne_true, if_pos h]

theorem next_of_ofChar? {c : Char} {p : Punctuator} (h : Punctuator.ofChar? c = some p)
    (notSlash : p ≠ .slash) (rest : List Char) : next c rest = nextPunctuator p rest := by
  unfold Punctuator.ofChar? at h
  split at h <;> cases h <;> first | rfl | exact absurd rfl notSlash

-- ── One step takes what ends there ──

/-- A string is closed by the first quote after it is opened. -/
theorem nextString_of_quote_not_mem {body : List Char} (h : '"' ∉ body) (after : List Char) :
    nextString (body ++ '"' :: after) = (string body, after) := by
  have inside : ∀ c ∈ body, decide (c ≠ '"') = true := by
    intro c hc
    exact decide_eq_true (ne_of_mem_of_not_mem hc h)
  have stop : Avoids (· ≠ '"') ('"' :: after) := avoids_cons (by decide)
  rw [nextString, dropWhile_append_of_avoids inside stop, takeWhile_append_of_avoids inside stop]

/-- A string without a quote after it is opened goes on to the end. -/
theorem nextString_of_open {body : List Char} (h : '"' ∉ body) :
    nextString body = (openString body, []) := by
  have inside : ∀ c ∈ body, decide (c ≠ '"') = true := by
    intro c hc
    exact decide_eq_true (ne_of_mem_of_not_mem hc h)
  rw [nextString, List.dropWhile_eq_nil_iff.2 inside]

theorem nextNumber_of_endsBefore {d : Char} {whole fraction after : List Char}
    (good : (number (d :: whole) fraction).WellFormed)
    (ends : (number (d :: whole) fraction).EndsBefore after) {t : List Char}
    (h : (number (d :: whole) fraction).text = d :: t) :
    nextNumber d (t ++ after) = (number (d :: whole) fraction, after) := by
  obtain ⟨-, wholeDigits, fractionDigits⟩ := good
  have inside : ∀ c ∈ whole, c.isDigit = true :=
    fun c hc => wholeDigits c (List.mem_cons_of_mem d hc)
  cases fraction with
  | nil =>
      obtain rfl : whole = t := (List.cons.inj h).2
      obtain ⟨stop, noFraction⟩ := ends
      rw [nextNumber, dropWhile_append_of_avoids inside stop,
        takeWhile_append_of_avoids inside stop]
      split
      case h_1 e more => rw [if_neg (by simp [noFraction e more rfl])]
      case h_2 => rfl
  | cons e fraction =>
      obtain rfl : whole ++ '.' :: e :: fraction = t := (List.cons.inj h).2
      have stop : Avoids Char.isDigit ('.' :: e :: (fraction ++ after)) := avoids_cons (by decide)
      have more : ∀ c ∈ fraction, c.isDigit = true :=
        fun c hc => fractionDigits c (List.mem_cons_of_mem e hc)
      rw [List.append_assoc, List.cons_append, List.cons_append, nextNumber,
        dropWhile_append_of_avoids inside stop, takeWhile_append_of_avoids inside stop]
      show (if e.isDigit = true then _ else _) = _
      rw [if_pos (fractionDigits e List.mem_cons_self), takeWhile_append_of_avoids more ends,
        dropWhile_append_of_avoids more ends]

/-- A punctuator is one character that stands for it, or a shorter one and an equals sign. -/
theorem spelling_cases (p : Punctuator) :
    (∃ c, p.spelling.toList = [c] ∧ Punctuator.ofChar? c = some p) ∨
      ∃ q c, p.spelling.toList = [c, '='] ∧ Punctuator.ofChar? c = some q ∧ q ≠ .slash ∧
        q.withEqual? = some p := by
  cases p with
  | bangEqual => exact Or.inr ⟨.bang, '!', by decide, rfl, by decide, rfl⟩
  | equalEqual => exact Or.inr ⟨.equal, '=', by decide, rfl, by decide, rfl⟩
  | greaterEqual => exact Or.inr ⟨.greater, '>', by decide, rfl, by decide, rfl⟩
  | lessEqual => exact Or.inr ⟨.less, '<', by decide, rfl, by decide, rfl⟩
  | _ => exact Or.inl ⟨_, rfl, rfl⟩

theorem nextPunctuator_of_avoids {p : Punctuator} {after : List Char}
    (h : p.withEqual? ≠ none → Avoids (· == '=') after) :
    nextPunctuator p after = (punctuator p, after) := by
  rw [nextPunctuator]
  rintro longer rest hp rfl
  have stop := h (by rw [hp]; exact Option.some_ne_none longer) '=' rfl
  exact absurd stop (by decide)

theorem nextPunctuator_equal {p longer : Punctuator} (h : p.withEqual? = some longer)
    (after : List Char) : nextPunctuator p ('=' :: after) = (punctuator longer, after) := by
  simp only [nextPunctuator, h]

theorem nextSlash_of_avoids {after : List Char} (h : Avoids (· == '/') after) :
    nextSlash after = (punctuator .slash, after) := by
  rw [nextSlash]
  rintro rest rfl
  exact absurd (h '/' rfl) (by decide)

theorem next_punctuator_of_endsBefore {p : Punctuator} {after : List Char}
    (ends : (punctuator p).EndsBefore after) {c : Char} {t : List Char}
    (h : p.spelling.toList = c :: t) : next c (t ++ after) = (punctuator p, after) := by
  obtain ⟨noEqual, noSlash⟩ := ends
  rcases spelling_cases p with ⟨d, hd, stands⟩ | ⟨q, d, hd, stands, notSlash, longer⟩
  · obtain ⟨rfl, rfl⟩ := List.cons.inj (hd.symm.trans h)
    by_cases slash : p = .slash
    · subst slash
      obtain rfl : d = '/' := (List.cons.inj hd).1.symm
      exact nextSlash_of_avoids (noSlash rfl)
    · rw [next_of_ofChar? stands slash]
      exact nextPunctuator_of_avoids noEqual
  · obtain ⟨rfl, rfl⟩ := List.cons.inj (hd.symm.trans h)
    rw [next_of_ofChar? stands notSlash]
    exact nextPunctuator_equal longer after

/-- **One step.** An element that ends before a text is what is read off the front of the two. -/
theorem next_eq_of_endsBefore {e : Element} {after : List Char} (good : e.WellFormed)
    (ends : e.EndsBefore after) {c : Char} {t : List Char} (h : e.text = c :: t) :
    next c (t ++ after) = (e, after) := by
  cases e with
  | punctuator p => exact next_punctuator_of_endsBefore ends h
  | string body =>
      obtain rfl : '"' = c := (List.cons.inj h).1
      obtain rfl : body ++ ['"'] = t := (List.cons.inj h).2
      rw [next_quote, List.append_assoc]
      exact nextString_of_quote_not_mem good after
  | number whole fraction =>
      cases whole with
      | nil => exact absurd rfl good.1
      | cons d whole =>
          obtain rfl : d = c := by
            cases fraction with
            | nil => exact (List.cons.inj h).1
            | cons e fraction => exact (List.cons.inj h).1
          rw [next_of_isDigit (good.2.1 d List.mem_cons_self)]
          exact nextNumber_of_endsBefore good ends h
  | word letters =>
      obtain ⟨d, rest, rfl, first, inside⟩ := good
      obtain ⟨rfl, rfl⟩ := List.cons.inj h
      rw [next_of_isWordStart first, nextWord, takeWhile_append_of_avoids inside ends,
        dropWhile_append_of_avoids inside ends]
  | comment body =>
      obtain ⟨rfl, rfl⟩ := List.cons.inj h
      have inside : ∀ c ∈ body, decide (c ≠ '\n') = true := by
        intro c hc
        exact decide_eq_true (ne_of_mem_of_not_mem hc good)
      rw [next_slash, List.cons_append, nextSlash, takeWhile_append_of_avoids inside ends,
        dropWhile_append_of_avoids inside ends]
  | blank d =>
      obtain ⟨rfl, rfl⟩ := List.cons.inj h
      exact next_of_isBlank good _
  | openString body =>
      obtain ⟨rfl, rfl⟩ := List.cons.inj h
      obtain rfl : after = [] := ends
      rw [next_quote, List.append_nil]
      exact nextString_of_open good
  | stray d =>
      obtain ⟨rfl, rfl⟩ := List.cons.inj h
      obtain ⟨notBlank, notQuote, notDigit, notWord, noPunctuator⟩ := good
      have notSlash : d ≠ '/' := by
        rintro rfl
        exact absurd noPunctuator (by decide)
      rw [next, if_neg (by simp [notBlank]), if_neg notQuote, if_neg (by simp [notDigit]),
        if_neg (by simp [notWord]), if_neg notSlash, noPunctuator]
      rfl

-- ── One step takes a whole element ──

/-- What a step yields: a well-formed element that ends before what is left. -/
def Whole (read : Element × List Char) : Prop :=
  read.1.WellFormed ∧ read.1.EndsBefore read.2

theorem whole_nextString (rest : List Char) : Whole (nextString rest) := by
  rw [nextString]
  split
  case h_1 open_ =>
    refine ⟨?_, rfl⟩
    intro quote
    have inside := List.dropWhile_eq_nil_iff.1 open_ '"' quote
    exact absurd inside (by decide)
  case h_2 =>
    refine ⟨?_, trivial⟩
    intro quote
    exact absurd (List.mem_takeWhile_imp quote) (by decide)

theorem whole_nextNumber {first : Char} (h : first.isDigit = true) (rest : List Char) :
    Whole (nextNumber first rest) := by
  have digits : ∀ d ∈ first :: rest.takeWhile Char.isDigit, d.isDigit = true := by
    intro d hd
    rcases List.mem_cons.1 hd with rfl | hd
    · exact h
    · exact List.mem_takeWhile_imp hd
  have stop := avoids_dropWhile Char.isDigit rest
  rw [nextNumber]
  split
  case h_1 d more point =>
    rw [point] at stop
    by_cases fraction : d.isDigit = true
    · rw [if_pos fraction]
      refine ⟨⟨List.cons_ne_nil _ _, digits, ?_⟩, avoids_dropWhile _ _⟩
      intro e he
      rcases List.mem_cons.1 he with rfl | he
      · exact fraction
      · exact List.mem_takeWhile_imp he
    · rw [if_neg fraction]
      refine ⟨⟨List.cons_ne_nil _ _, digits, fun _ he => absurd he List.not_mem_nil⟩,
        stop, ?_⟩
      rintro e others begins
      obtain ⟨rfl, rfl⟩ := List.cons.inj (List.cons.inj begins).2
      exact Bool.eq_false_iff.2 fraction
  case h_2 noPoint =>
    refine ⟨⟨List.cons_ne_nil _ _, digits, fun _ he => absurd he List.not_mem_nil⟩,
      stop, ?_⟩
    intro d more begins
    exact absurd begins (noPoint d more)

theorem whole_nextWord {first : Char} (h : isWordStart first = true) (rest : List Char) :
    Whole (nextWord first rest) :=
  ⟨⟨first, _, rfl, h, fun _ hl => List.mem_takeWhile_imp hl⟩, avoids_dropWhile _ _⟩

theorem whole_nextSlash (rest : List Char) : Whole (nextSlash rest) := by
  by_cases h : ∃ after, rest = '/' :: after
  · obtain ⟨after, rfl⟩ := h
    refine ⟨?_, avoids_dropWhile _ _⟩
    intro newline
    exact absurd (List.mem_takeWhile_imp newline) (by decide)
  · have stop : Avoids (· == '/') rest := by
      intro c hc
      by_contra slash
      obtain ⟨after, rfl⟩ := List.head?_eq_some_iff.1 hc
      obtain rfl : c = '/' := by simpa using slash
      exact h ⟨after, rfl⟩
    rw [nextSlash_of_avoids stop]
    exact ⟨trivial, fun more => absurd rfl more, fun _ => stop⟩

theorem whole_nextPunctuator {p : Punctuator} (notSlash : p ≠ .slash) (rest : List Char) :
    Whole (nextPunctuator p rest) := by
  by_cases short : p.withEqual? ≠ none → Avoids (· == '=') rest
  · rw [nextPunctuator_of_avoids short]
    exact ⟨trivial, short, fun slash => absurd slash notSlash⟩
  · obtain ⟨more, equal⟩ := Classical.not_imp.1 short
    obtain ⟨longer, hp⟩ := Option.ne_none_iff_exists'.1 more
    obtain ⟨c, equal⟩ := Classical.not_forall.1 equal
    obtain ⟨hc, equal⟩ := Classical.not_imp.1 equal
    obtain ⟨after, rfl⟩ := List.head?_eq_some_iff.1 hc
    obtain rfl : c = '=' := by simpa using equal
    have longest : longer.withEqual? = none ∧ longer ≠ .slash := by
      cases p <;> cases hp <;> decide
    rw [nextPunctuator_equal hp]
    exact ⟨trivial, fun more => absurd longest.1 more, fun slash => absurd slash longest.2⟩

/-- Whatever is read is well-formed and ends where reading left off. -/
theorem whole_next (c : Char) (rest : List Char) : Whole (next c rest) := by
  by_cases blank : isBlank c = true
  · rw [next_of_isBlank blank]
    exact ⟨blank, trivial⟩
  by_cases quote : c = '"'
  · subst quote
    exact whole_nextString rest
  by_cases digit : c.isDigit = true
  · rw [next_of_isDigit digit]
    exact whole_nextNumber digit rest
  by_cases word : isWordStart c = true
  · rw [next_of_isWordStart word]
    exact whole_nextWord word rest
  by_cases slash : c = '/'
  · subst slash
    exact whole_nextSlash rest
  rw [next, if_neg blank, if_neg quote, if_neg digit, if_neg word, if_neg slash]
  cases stands : Punctuator.ofChar? c with
  | some p =>
      refine whole_nextPunctuator ?_ rest
      rintro rfl
      obtain ⟨rfl, -⟩ := List.cons.inj (Punctuator.spelling_of_ofChar? stands)
      exact slash rfl
  | none =>
      rw [Bool.not_eq_true] at blank digit word
      exact ⟨⟨blank, quote, digit, word, stands⟩, trivial⟩

-- ── Whole texts ─────────────────────

/-- A row of well-formed elements of which each ends before the next. -/
inductive Tiled : List Element → Prop
  | nil : Tiled []
  | cons {e : Element} {es : List Element} :
      e.WellFormed → e.EndsBefore (es.flatMap text) → Tiled es → Tiled (e :: es)

/-- Reading a text yields such a row. -/
theorem tiled_tile (source : List Char) : Tiled (tile source) := by
  fun_induction tile source with
  | case1 => exact Tiled.nil
  | case2 c rest found ih =>
      obtain ⟨good, ends⟩ := whole_next c rest
      refine Tiled.cons good ?_ ih
      rw [flatMap_text_tile]
      exact ends

/-- Such a row, written out, is read back. -/
theorem tile_of_tiled {es : List Element} (h : Tiled es) : tile (es.flatMap text) = es := by
  induction h with
  | nil => exact tile_nil
  | @cons e es good ends _ ih =>
      obtain ⟨c, t, h⟩ := List.exists_cons_of_ne_nil good.text_ne_nil
      have step := next_eq_of_endsBefore good ends h
      rw [List.flatMap_cons, h, List.cons_append, tile_cons, step, ih]

/-- **Whole texts.** The elements of a text are the only row of well-formed elements that makes it
up and in which each ends before the next. -/
theorem tile_eq_iff {source : List Char} {es : List Element} :
    tile source = es ↔ es.flatMap text = source ∧ Tiled es := by
  constructor
  · rintro rfl
    exact ⟨flatMap_text_tile source, tiled_tile source⟩
  · rintro ⟨rfl, tiled⟩
    exact tile_of_tiled tiled

theorem tile_newline (rest : List Char) : tile ('\n' :: rest) = blank '\n' :: tile rest := by
  rw [tile_cons, next_of_isBlank rfl]

end Element

end LoxScan
