import LoxScan.Proofs.Boundary
import LoxScan.Scan.Basic

/-!
# The lexical grammar

The grammar says which texts an element may have, rule by rule, and knows nothing of how they are
read. Seven rules are given by the texts that they spell; the eighth, a stray character, is what
begins none of them. Only a string that is never closed asks for more than its own text, for the
input must end after it.

A source is read by taking, again and again, the longest text that any rule matches at its front
(`Longest`, `Reading`). That this can always be done, and in one way only, is a theorem about the
grammar, and the elements that the scanner reads are how it is done.

* **`exists_longer`**: a text that does not end before what follows can be made longer. So a text
  that no rule can better is one that ends there, and that is what a step reads.
* **`longest_next`**: one step reads the longest match.
* **`reading_tile`**, **`reading_unique`**: the elements of a source are its one longest-match
  reading.
-/

namespace LoxScan

open Utf8

/-- The rules of the lexical grammar. -/
inductive Rule
  | punctuation | string | number | word | comment | blank | openString | stray
deriving DecidableEq

namespace Rule

-- ── Texts and matches ───────────────

/-- The class `[0-9]`. -/
def Digit (c : Char) : Prop :=
  '0' ≤ c ∧ c ≤ '9'

/-- The class `[A-Za-z_]`. -/
def Letter (c : Char) : Prop :=
  ('A' ≤ c ∧ c ≤ 'Z') ∨ ('a' ≤ c ∧ c ≤ 'z') ∨ c = '_'

/-- The texts of the rules that have texts of their own. -/
inductive Spells : Rule → List Char → Prop
  | punctuation (p : Punctuator) : Spells punctuation p.spelling.toList
  | string {body : List Char} : '"' ∉ body → Spells string ('"' :: body ++ ['"'])
  | whole {digits : List Char} : digits ≠ [] → (∀ d ∈ digits, Digit d) →
      Spells number digits
  | fraction {whole digits : List Char} : whole ≠ [] → (∀ d ∈ whole, Digit d) →
      digits ≠ [] → (∀ d ∈ digits, Digit d) → Spells number (whole ++ '.' :: digits)
  | word {first : Char} {rest : List Char} : Letter first →
      (∀ c ∈ rest, Letter c ∨ Digit c) → Spells word (first :: rest)
  | comment {body : List Char} : '\n' ∉ body → Spells comment ('/' :: '/' :: body)
  | blank {c : Char} : c = ' ' ∨ c = '\t' ∨ c = '\r' ∨ c = '\n' → Spells blank [c]
  | openString {body : List Char} : '"' ∉ body → Spells openString ('"' :: body)

/-- Whether a rule matches a text of which `rest` is left of the source. -/
def Matches (rule : Rule) (taken rest : List Char) : Prop :=
  match rule with
  | stray => ∃ c, taken = [c] ∧ ∀ other more, ¬ Spells other (c :: more)
  | openString => Spells openString taken ∧ rest = []
  | _ => Spells rule taken

/-- A match that is as long as any other match at the same place. -/
def Longest (rule : Rule) (taken rest : List Char) : Prop :=
  Matches rule taken rest ∧
    ∀ other taken' rest', taken' ++ rest' = taken ++ rest → Matches other taken' rest' →
      taken'.length ≤ taken.length

end Rule

/-- What one rule took of a source, and the byte offset at which that begins. -/
structure Piece where
  rule : Rule
  text : List Char
  start : Nat

/-- A reading of a source from an offset on: at every point the longest match is taken. -/
inductive Reading : Nat → List Char → List Piece → Prop
  | done (start : Nat) : Reading start [] []
  | take {start : Nat} {rule : Rule} {taken rest : List Char} {pieces : List Piece} :
      Rule.Longest rule taken rest → Reading (start + byteLength taken) rest pieces →
      Reading start (taken ++ rest) (⟨rule, taken, start⟩ :: pieces)

-- ── Elements are what the rules match ──

namespace Rule

theorem digit_iff {c : Char} : Digit c ↔ c.isDigit = true := by
  simp [Digit, Char.isDigit, Char.le_def]

theorem letter_iff {c : Char} : Letter c ↔ isWordStart c = true :=
  Element.isWordStart_iff.symm

theorem letter_or_digit_iff {c : Char} : Letter c ∨ Digit c ↔ isWordRest c = true := by
  rw [letter_iff, digit_iff]
  simp [isWordStart, isWordRest, Char.isAlphanum, or_assoc, or_comm, or_left_comm]

end Rule

namespace Element

/-- The rule of an element. -/
def rule : Element → Rule
  | punctuator _ => .punctuation
  | string _ => .string
  | number _ _ => .number
  | word _ => .word
  | comment _ => .comment
  | blank _ => .blank
  | openString _ => .openString
  | stray _ => .stray

/-- The text of a well-formed element other than a stray character is a text of its rule. -/
theorem WellFormed.spells {e : Element} (good : e.WellFormed) (known : e.rule ≠ .stray) :
    Rule.Spells e.rule e.text := by
  cases e with
  | punctuator p => exact Rule.Spells.punctuation p
  | string body => exact Rule.Spells.string good
  | number whole fraction =>
      obtain ⟨nonempty, wholeDigits, fractionDigits⟩ := good
      have inside : ∀ d ∈ whole, Rule.Digit d := fun d hd => Rule.digit_iff.2 (wholeDigits d hd)
      cases fraction with
      | nil => exact Rule.Spells.whole nonempty inside
      | cons d fraction =>
          exact Rule.Spells.fraction nonempty inside (List.cons_ne_nil d fraction)
            fun e he => Rule.digit_iff.2 (fractionDigits e he)
  | word letters =>
      obtain ⟨c, rest, rfl, first, inside⟩ := good
      exact Rule.Spells.word (Rule.letter_iff.2 first)
        fun l hl => Rule.letter_or_digit_iff.2 (inside l hl)
  | comment body => exact Rule.Spells.comment good
  | blank c =>
      refine Rule.Spells.blank ?_
      rcases isBlank_iff.1 good with h | h | h | h
      · exact Or.inl h
      · exact Or.inr (Or.inr (Or.inl h))
      · exact Or.inr (Or.inl h)
      · exact Or.inr (Or.inr (Or.inr h))
  | openString body => exact Rule.Spells.openString good
  | stray c => exact absurd rfl known

/-- A text of a rule is the text of a well-formed element of it. -/
theorem exists_of_spells {rule : Rule} {taken : List Char} (h : Rule.Spells rule taken) :
    ∃ e : Element, e.rule = rule ∧ e.text = taken ∧ e.WellFormed ∧ e.rule ≠ .stray := by
  cases h with
  | punctuation p => exact ⟨punctuator p, rfl, rfl, trivial, nofun⟩
  | @string body h => exact ⟨string body, rfl, rfl, h, nofun⟩
  | whole nonempty inside =>
      refine ⟨number taken [], rfl, rfl, ⟨nonempty, ?_, fun _ h => nomatch h⟩, nofun⟩
      exact fun d hd => Rule.digit_iff.1 (inside d hd)
  | @fraction whole digits nonempty inside more after =>
      cases digits with
      | nil => exact absurd rfl more
      | cons d digits =>
          refine ⟨number whole (d :: digits), rfl, rfl, ⟨nonempty, ?_, ?_⟩, nofun⟩
          · exact fun e he => Rule.digit_iff.1 (inside e he)
          · exact fun e he => Rule.digit_iff.1 (after e he)
  | @word c rest first inside =>
      refine ⟨word (c :: rest), rfl, rfl,
        ⟨c, rest, rfl, Rule.letter_iff.1 first, ?_⟩, nofun⟩
      exact fun l hl => Rule.letter_or_digit_iff.1 (inside l hl)
  | @comment body h => exact ⟨comment body, rfl, rfl, h, nofun⟩
  | @blank c h =>
      refine ⟨blank c, rfl, rfl, isBlank_iff.2 ?_, nofun⟩
      rcases h with h | h | h | h
      · exact Or.inl h
      · exact Or.inr (Or.inr (Or.inl h))
      · exact Or.inr (Or.inl h)
      · exact Or.inr (Or.inr (Or.inr h))
  | @openString body h => exact ⟨openString body, rfl, rfl, h, nofun⟩

/-- Well-formed elements of one text are the same, for the text alone is read as either. -/
theorem WellFormed.eq_of_text_eq {e f : Element} (he : e.WellFormed) (hf : f.WellFormed)
    (spelled : e.text = f.text) : e = f := by
  obtain ⟨c, t, h⟩ := List.exists_cons_of_ne_nil he.text_ne_nil
  have first := next_eq_of_endsBefore he (endsBefore_nil e) h
  have second := next_eq_of_endsBefore hf (endsBefore_nil f) (spelled.symm.trans h)
  exact congrArg Prod.fst (first.symm.trans second)

theorem wellFormed_stray_iff {c : Char} :
    (stray c).WellFormed ↔ ∀ other more, ¬ Rule.Spells other (c :: more) := by
  constructor
  · intro good other more spelled
    obtain ⟨e, -, he, wellFormed, known⟩ := exists_of_spells spelled
    -- What is read at the front of `c :: more` cannot be both elements.
    have first := next_eq_of_endsBefore wellFormed (endsBefore_nil e) he
    have second : next c (more ++ []) = (stray c, more ++ []) :=
      next_eq_of_endsBefore (t := []) good trivial rfl
    obtain rfl : e = stray c := congrArg Prod.fst (first.symm.trans second)
    exact known rfl
  · intro noText
    obtain ⟨wellFormed, -⟩ := whole_next c []
    have whole := text_next_append c []
    by_cases known : (next c []).1.rule = .stray
    · cases found : (next c []).1 with
      | stray d =>
          rw [found] at whole wellFormed
          obtain rfl := (List.cons.inj whole).1
          exact wellFormed
      | _ =>
          rw [found] at known
          exact nomatch known
    · obtain ⟨d, t, h⟩ := List.exists_cons_of_ne_nil wellFormed.text_ne_nil
      rw [h] at whole
      obtain rfl := (List.cons.inj whole).1
      have spelled := wellFormed.spells known
      rw [h] at spelled
      exact absurd spelled (noText _ t)

/-- The matches of a rule are the well-formed elements of it, and an open string must come last. -/
theorem matches_iff {rule : Rule} {taken rest : List Char} :
    Rule.Matches rule taken rest ↔
      ∃ e : Element, e.rule = rule ∧ e.text = taken ∧ e.WellFormed ∧
        (rule = .openString → rest = []) := by
  constructor
  · intro h
    by_cases known : rule = .stray
    · subst known
      obtain ⟨c, rfl, noText⟩ := h
      exact ⟨stray c, rfl, rfl, wellFormed_stray_iff.2 noText, nofun⟩
    · have spelled : Rule.Spells rule taken := by
        cases rule with
        | openString => exact h.1
        | stray => exact absurd rfl known
        | _ => exact h
      obtain ⟨e, he, ht, good, -⟩ := exists_of_spells spelled
      refine ⟨e, he, ht, good, ?_⟩
      rintro rfl
      exact h.2
  · rintro ⟨e, rfl, rfl, good, last⟩
    by_cases known : e.rule = .stray
    · cases e with
      | stray c => exact ⟨c, rfl, wellFormed_stray_iff.1 good⟩
      | _ => exact nomatch known
    · have spelled := good.spells known
      cases e with
      | openString body => exact ⟨spelled, last rfl⟩
      | stray c => exact absurd rfl known
      | _ => exact spelled

-- ── A match that goes on is not the longest ──

theorem Avoids.of_not {p : Char → Bool} {after : List Char} (h : ¬ Avoids p after) :
    ∃ c rest, after = c :: rest ∧ p c = true := by
  obtain ⟨c, h⟩ := Classical.not_forall.1 h
  obtain ⟨head, stop⟩ := Classical.not_imp.1 h
  obtain ⟨rest, rfl⟩ := List.head?_eq_some_iff.1 head
  exact ⟨c, rest, rfl, Bool.not_eq_false _ ▸ stop⟩

/-- A well-formed element that does not end before what follows can be made longer. -/
theorem exists_longer {e : Element} {after : List Char} (good : e.WellFormed)
    (more : ¬ e.EndsBefore after) :
    ∃ (f : Element) (rest : List Char),
      f.WellFormed ∧ f.text ++ rest = e.text ++ after ∧ e.text.length < f.text.length := by
  cases e with
  | punctuator p =>
      by_cases short : p.withEqual? ≠ none → Avoids (· == '=') after
      · -- Then it is a slash, and a second one follows.
        have second : ¬ (p = .slash → Avoids (· == '/') after) := fun h => more ⟨short, h⟩
        obtain ⟨rfl, slash⟩ := Classical.not_imp.1 second
        obtain ⟨c, rest, rfl, hc⟩ := Avoids.of_not slash
        obtain rfl : c = '/' := by simpa using hc
        exact ⟨comment [], rest, List.not_mem_nil, rfl, by decide⟩
      · obtain ⟨lengthens, equal⟩ := Classical.not_imp.1 short
        obtain ⟨longer, hp⟩ := Option.ne_none_iff_exists'.1 lengthens
        obtain ⟨c, rest, rfl, hc⟩ := Avoids.of_not equal
        obtain rfl : c = '=' := by simpa using hc
        refine ⟨punctuator longer, rest, trivial, ?_, ?_⟩
        · simp [text, Punctuator.spelling_of_withEqual? hp]
        · simp [text, Punctuator.spelling_of_withEqual? hp]
  | number whole fraction =>
      obtain ⟨nonempty, wholeDigits, fractionDigits⟩ := good
      cases fraction with
      | nil =>
          by_cases digits : Avoids Char.isDigit after
          · have point : ¬ ∀ d rest, after = '.' :: d :: rest → d.isDigit = false :=
              fun h => more ⟨digits, h⟩
            obtain ⟨d, point⟩ := Classical.not_forall.1 point
            obtain ⟨rest, point⟩ := Classical.not_forall.1 point
            obtain ⟨rfl, digit⟩ := Classical.not_imp.1 point
            refine ⟨number whole [d], rest, ⟨nonempty, wholeDigits, ?_⟩, ?_, ?_⟩
            · intro e he
              obtain rfl := List.mem_singleton.1 he
              exact Bool.not_eq_false _ ▸ digit
            · simp [text]
            · simp [text]
          · obtain ⟨d, rest, rfl, digit⟩ := Avoids.of_not digits
            refine ⟨number (whole ++ [d]) [], rest, ⟨by simp, ?_, by simp⟩, ?_, ?_⟩
            · intro e he
              rcases List.mem_append.1 he with he | he
              · exact wholeDigits e he
              · obtain rfl := List.mem_singleton.1 he
                exact digit
            · simp [text]
            · simp [text]
      | cons d fraction =>
          obtain ⟨e, rest, rfl, digit⟩ := Avoids.of_not more
          refine ⟨number whole (d :: (fraction ++ [e])), rest,
            ⟨nonempty, wholeDigits, ?_⟩, ?_, ?_⟩
          · intro c hc
            rcases List.mem_append.1 (List.cons_append ▸ hc :
              c ∈ (d :: fraction) ++ [e]) with hc | hc
            · exact fractionDigits c hc
            · obtain rfl := List.mem_singleton.1 hc
              exact digit
          · simp [text]
          · simp [text]
  | word letters =>
      obtain ⟨c, tail, rfl, first, inside⟩ := good
      obtain ⟨d, rest, rfl, letter⟩ := Avoids.of_not more
      refine ⟨word (c :: (tail ++ [d])), rest, ⟨c, tail ++ [d], rfl, first, ?_⟩, ?_, ?_⟩
      · intro l hl
        rcases List.mem_append.1 hl with hl | hl
        · exact inside l hl
        · obtain rfl := List.mem_singleton.1 hl
          exact letter
      · simp [text]
      · simp [text]
  | comment body =>
      obtain ⟨c, rest, rfl, hc⟩ := Avoids.of_not more
      refine ⟨comment (body ++ [c]), rest, ?_, ?_, ?_⟩
      · intro newline
        rcases List.mem_append.1 newline with newline | newline
        · exact good newline
        · obtain rfl := List.mem_singleton.1 newline
          exact absurd hc (by decide)
      · simp [text]
      · simp [text]
  | openString body =>
      obtain ⟨c, rest, rfl⟩ := List.exists_cons_of_ne_nil more
      by_cases quote : c = '"'
      · subst quote
        refine ⟨string body, rest, good, ?_, ?_⟩
        · simp [text]
        · simp [text]
      · refine ⟨openString (body ++ [c]), rest, ?_, ?_, ?_⟩
        · intro again
          rcases List.mem_append.1 again with again | again
          · exact good again
          · exact quote (List.mem_singleton.1 again).symm
        · simp [text]
        · simp [text]
  | string body => exact absurd trivial more
  | blank c => exact absurd trivial more
  | stray c => exact absurd trivial more

/-- No well-formed element at the front of a text is longer than the one that is read there. Either
it ends before what follows, and is the one that is read, or it can be made longer and so leaves
less. -/
theorem length_text_le_next {e : Element} {after : List Char} (good : e.WellFormed) {c : Char}
    {rest : List Char} (h : e.text ++ after = c :: rest) :
    e.text.length ≤ (next c rest).1.text.length := by
  induction hn : after.length using Nat.strong_induction_on generalizing e after with
  | _ n ih =>
      by_cases ends : e.EndsBefore after
      · obtain ⟨d, t, ht⟩ := List.exists_cons_of_ne_nil good.text_ne_nil
        rw [ht, List.cons_append] at h
        obtain ⟨rfl, rfl⟩ := List.cons.inj h
        rw [next_eq_of_endsBefore good ends ht]
      · obtain ⟨f, less, goodF, spelled, longer⟩ := exists_longer good ends
        have lengths := congrArg List.length spelled
        rw [List.length_append, List.length_append] at lengths
        have bound := ih less.length (by omega) goodF (spelled.trans h) rfl
        omega

end Element

-- ── Readings ────────────────────────

namespace Rule

theorem Matches.ne_nil {rule : Rule} {taken rest : List Char} (h : Matches rule taken rest) :
    taken ≠ [] := by
  obtain ⟨e, -, rfl, good, -⟩ := Element.matches_iff.1 h
  exact good.text_ne_nil

theorem Matches.unique {rule other : Rule} {taken rest rest' : List Char}
    (h : Matches rule taken rest) (h' : Matches other taken rest') : rule = other := by
  obtain ⟨e, rfl, ht, good, -⟩ := Element.matches_iff.1 h
  obtain ⟨f, rfl, hf, good', -⟩ := Element.matches_iff.1 h'
  rw [good.eq_of_text_eq good' (ht.trans hf.symm)]

theorem Longest.unique {rule other : Rule} {taken taken' rest rest' : List Char}
    (h : Longest rule taken rest) (h' : Longest other taken' rest')
    (whole : taken ++ rest = taken' ++ rest') :
    rule = other ∧ taken = taken' ∧ rest = rest' := by
  have le := h'.2 rule taken rest whole h.1
  have ge := h.2 other taken' rest' whole.symm h'.1
  obtain ⟨rfl, rfl⟩ := List.append_inj whole (Nat.le_antisymm le ge)
  exact ⟨h.1.unique h'.1, rfl, rfl⟩

end Rule

/-- **One step** takes the longest match. -/
theorem Element.longest_next (c : Char) (rest : List Char) :
    Rule.Longest (next c rest).1.rule (next c rest).1.text (next c rest).2 := by
  obtain ⟨good, ends⟩ := whole_next c rest
  constructor
  · refine matches_iff.2 ⟨_, rfl, rfl, good, ?_⟩
    intro open_
    cases found : (next c rest).1 with
    | openString body =>
        rw [found] at ends
        exact ends
    | _ =>
        rw [found] at open_
        exact nomatch open_
  · intro other taken rest' whole h
    obtain ⟨e, -, rfl, wellFormed, -⟩ := matches_iff.1 h
    exact length_text_le_next wellFormed (whole.trans (text_next_append c rest))

/-- The piece of a placed element. -/
def Placed.piece (p : Placed) : Piece :=
  ⟨p.element.rule, p.element.text, p.start.offset⟩

/-- The elements of a source are a longest-match reading of it. -/
theorem reading_tile (p : Position) (source : List Char) :
    Reading p.offset source ((Placed.lay p (Element.tile source)).map Placed.piece) := by
  fun_induction Element.tile source generalizing p with
  | case1 => exact Reading.done p.offset
  | case2 c rest found ih =>
      have whole := Element.text_next_append c rest
      have later := ih (p.advance found.1.text)
      rw [Position.offset_advance] at later
      rw [← whole]
      exact Reading.take (Element.longest_next c rest) later

theorem Reading.flatMap_text {start : Nat} {source : List Char} {pieces : List Piece}
    (h : Reading start source pieces) : pieces.flatMap Piece.text = source := by
  induction h with
  | done start => rfl
  | take _ _ ih => rw [List.flatMap_cons, ih]

/-- A source has one longest-match reading. -/
theorem reading_unique {start : Nat} {source : List Char} {pieces others : List Piece}
    (h : Reading start source pieces) (h' : Reading start source others) : others = pieces := by
  induction h generalizing others with
  | done start =>
      generalize hs : ([] : List Char) = source at h'
      cases h' with
      | done => rfl
      | take longest _ => exact absurd (List.append_eq_nil_iff.1 hs.symm).1 longest.1.ne_nil
  | @take start rule taken rest pieces longest _ ih =>
      generalize hs : taken ++ rest = source at h'
      cases h' with
      | done => exact absurd (List.append_eq_nil_iff.1 hs).1 longest.1.ne_nil
      | take longest' later =>
          obtain ⟨rfl, rfl, rfl⟩ := longest.unique longest' hs
          rw [ih later]

end LoxScan
