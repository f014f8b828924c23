import LoxScan.Proofs.Grammar
import LoxScan.Proofs.Placement
import LoxScan.Text.Cursor

/-!
# Tokens written out and scanned again

Tokens are written out with separators between them, which may be empty. Scanned again, the text
gives back the same tokens in the same places, unless two of them run together: a word takes letters
and digits that touch it, a number digits, a sign an equals sign, a slash another slash. One clash
takes three tokens, for a point between two numbers makes one number of them if the first has no
fraction (`Clash`). No other neighbours need a separator.

What runs together is a matter of first characters. The first character of a lexeme tells of its
kind all that an element before it asks for, so an element ends before the rest of the text exactly
if there is no clash at its token.

* **`endsBefore_iff`**: an element ends before what is written after it exactly if nothing clashes
  there.
* **`exists_row`**: where nothing clashes, the elements of the tokens, with blanks and comments
  between them, are a row that reads back.
* **`scan_write_iff`**: a text of tokens and separators scans to these tokens, in these places and
  without a report, exactly if nothing clashes in it.
-/

namespace LoxScan

open Utf8

-- ── Tokens and separators ───────────

namespace Kind

/-- The lexemes of a kind. -/
def Spells : Kind → List Char → Prop
  | punctuator p, lexeme => lexeme = p.spelling.toList
  | keyword k, lexeme => lexeme = k.spelling.toList
  | string, lexeme => Rule.Spells .string lexeme
  | number, lexeme => Rule.Spells .number lexeme
  | identifier, lexeme => Rule.Spells .word lexeme ∧ ∀ k : Keyword, lexeme ≠ k.spelling.toList
  | eof, _ => False

/-- Keywords and identifiers are words. -/
def isWord : Kind → Bool
  | identifier | keyword _ => true
  | punctuator _ | string | number | eof => false

/-- The kinds that run together when the second follows the first at once. -/
inductive Merges : Kind → Kind → Prop
  | words {k l : Kind} : k.isWord = true → l.isWord = true → Merges k l
  | wordNumber {k : Kind} : k.isWord = true → Merges k number
  | numbers : Merges number number
  | equals {p q : Punctuator} : p ∈ [.bang, .equal, .less, .greater] →
      q ∈ [.equal, .equalEqual] → Merges (punctuator p) (punctuator q)
  | slashes : Merges (punctuator .slash) (punctuator .slash)

end Kind

/-- Blanks and comments with their line feeds, in any mix. -/
inductive Trivia : List Char → Prop
  | nil : Trivia []
  | blank {c : Char} {rest : List Char} : isBlank c = true → Trivia rest → Trivia (c :: rest)
  | comment {body rest : List Char} : '\n' ∉ body → Trivia rest →
      Trivia ('/' :: '/' :: body ++ '\n' :: rest)

/-- A separator is empty, or it begins with a blank. -/
def Separator (gap : List Char) : Prop :=
  gap = [] ∨ ∃ c rest, gap = c :: rest ∧ isBlank c = true ∧ Trivia rest

/-- A token to be written out, and the separator after it. -/
structure Printed where
  kind : Kind
  lexeme : String
  gap : String

/-- What a token is, and from where to where it goes. -/
structure Spot where
  kind : Kind
  lexeme : String
  start : Nat
  stop : Nat
deriving DecidableEq

def Token.spot (t : Token) : Spot :=
  ⟨t.kind, t.lexeme, t.span.start.toNat, t.span.stop.toNat⟩

namespace Printed

structure WellFormed (t : Printed) : Prop where
  spells : t.kind.Spells t.lexeme.toList
  separator : Separator t.gap.toList

/-- The characters of tokens and the separators after them. -/
def text (ts : List Printed) : List Char :=
  ts.flatMap fun t => t.lexeme.toList ++ t.gap.toList

/-- The text of a separator and of tokens after it. -/
def write (gap : String) (ts : List Printed) : String :=
  gap ++ String.ofList (text ts)

/-- Where tokens are laid down, from an offset on. -/
def spots : Nat → List Printed → List Spot
  | _, [] => []
  | start, t :: ts =>
    let stop := start + t.lexeme.utf8ByteSize
    ⟨t.kind, t.lexeme, start, stop⟩ :: spots (stop + t.gap.utf8ByteSize) ts

/-- The first tokens of a row run together: two of a kind to do so, or a number, a point and a
number of which the first has no fraction. -/
inductive Clash : List Printed → Prop
  | pair {t u : Printed} {ts : List Printed} : t.gap = "" → t.kind.Merges u.kind →
      Clash (t :: u :: ts)
  | point {t u v : Printed} {ts : List Printed} : t.kind = .number → '.' ∉ t.lexeme.toList →
      t.gap = "" → u.kind = .punctuator .dot → u.gap = "" → v.kind = .number →
        Clash (t :: u :: v :: ts)

end Printed

-- ── Words ───────────────────────────

namespace Kind

variable {k : Kind}

theorem spells_keyword (k : Keyword) : Rule.Spells .word k.spelling.toList := by
  have letters : ∃ c rest, k.spelling.toList = c :: rest ∧ isWordStart c = true ∧
      rest.all isWordRest = true := by
    cases k <;> exact ⟨_, _, rfl, by decide, by decide⟩
  obtain ⟨c, rest, h, first, inside⟩ := letters
  rw [h]
  refine Rule.Spells.word (Rule.letter_iff.2 first) ?_
  intro l hl
  exact Rule.letter_or_digit_iff.2 (List.all_eq_true.1 inside l hl)

theorem Spells.word {lexeme : List Char} (h : k.Spells lexeme) (word : k.isWord = true) :
    Rule.Spells .word lexeme := by
  cases k with
  | identifier => exact h.1
  | keyword k =>
      obtain rfl : lexeme = k.spelling.toList := h
      exact spells_keyword k
  | _ => exact nomatch word

end Kind

-- ── Elements of tokens ──────────────

namespace Element

/-- The kind of the token of an element, if it has one. -/
def kind? : Element → Option Kind
  | punctuator p => some (.punctuator p)
  | string _ => some .string
  | number _ _ => some .number
  | word letters => some (Kind.ofWord (String.ofList letters))
  | comment _ | blank _ | openString _ | stray _ => none

/-- An element is that of a token. -/
structure Stands (e : Element) (kind : Kind) (lexeme : List Char) : Prop where
  wellFormed : e.WellFormed
  text : e.text = lexeme
  kind : e.kind? = some kind

variable {k : Kind} {lexeme : List Char}

theorem kind?_word (h : k.Spells lexeme) (word : k.isWord = true) :
    (Element.word lexeme).kind? = some k := by
  rw [kind?]
  cases k with
  | identifier =>
      cases found : Keyword.ofSpelling? (String.ofList lexeme) with
      | none => rw [Kind.ofWord_of_none found]
      | some k =>
          rw [Keyword.ofSpelling?_eq_some_iff] at found
          exact absurd (by rw [found, String.toList_ofList]) (h.2 k)
  | keyword k =>
      obtain rfl : lexeme = k.spelling.toList := h
      rw [String.ofList_toList, Kind.ofWord_of_some (Keyword.ofSpelling?_spelling k)]
  | _ => exact nomatch word

/-- Every lexeme of a kind has its element. -/
theorem exists_stands (h : k.Spells lexeme) : ∃ e : Element, e.Stands k lexeme := by
  by_cases word : k.isWord = true
  · obtain ⟨e, rule, text, good, -⟩ := exists_of_spells (h.word word)
    cases e with
    | word letters =>
        obtain rfl : letters = lexeme := text
        exact ⟨_, good, rfl, kind?_word h word⟩
    | _ => exact nomatch rule
  · cases k with
    | punctuator p => exact ⟨punctuator p, trivial, Eq.symm h, rfl⟩
    | string =>
        obtain ⟨e, rule, text, good, -⟩ := exists_of_spells h
        cases e with
        | string body => exact ⟨_, good, text, rfl⟩
        | _ => exact nomatch rule
    | number =>
        obtain ⟨e, rule, text, good, -⟩ := exists_of_spells h
        cases e with
        | number whole fraction => exact ⟨_, good, text, rfl⟩
        | _ => exact nomatch rule
    | identifier => exact absurd rfl word
    | keyword k => exact absurd rfl word
    | eof => exact h.elim

theorem isWord_of_kind? {letters : List Char} (h : (word letters).kind? = some k) :
    k.isWord = true := by
  obtain worded : Kind.ofWord (String.ofList letters) = k := Option.some.inj h
  rw [← worded]
  rcases Kind.ofWord_cases (String.ofList letters) with ⟨k, word⟩ | word
  · rw [word]
    rfl
  · rw [word]
    rfl

end Element

-- ── First characters ────────────────

namespace Kind

variable {k : Kind} {c : Char} {rest : List Char}

theorem Spells.ne_nil {lexeme : List Char} (h : k.Spells lexeme) : lexeme ≠ [] := by
  obtain ⟨e, good, rfl, -⟩ := Element.exists_stands h
  exact good.text_ne_nil

theorem Spells.first_cases (h : k.Spells (c :: rest)) :
    (∃ p, k = .punctuator p ∧ p.spelling.toList = c :: rest) ∨ (k = .string ∧ c = '"') ∨
      (k = .number ∧ c.isDigit = true) ∨ (k.isWord = true ∧ isWordStart c = true) := by
  obtain ⟨e, good, text, kind⟩ := Element.exists_stands h
  cases e with
  | punctuator p => exact Or.inl ⟨p, (Option.some.inj kind).symm, text⟩
  | string body =>
      exact Or.inr (Or.inl ⟨(Option.some.inj kind).symm, (List.cons.inj text).1.symm⟩)
  | number whole fraction =>
      obtain ⟨nonempty, digits, -⟩ := good
      refine Or.inr (Or.inr (Or.inl ⟨(Option.some.inj kind).symm, ?_⟩))
      cases whole with
      | nil => exact absurd rfl nonempty
      | cons d whole =>
          obtain rfl : d = c := by
            cases fraction with
            | nil => exact (List.cons.inj text).1
            | cons e fraction => exact (List.cons.inj text).1
          exact digits d List.mem_cons_self
  | word letters =>
      obtain ⟨d, tail, rfl, first, -⟩ := good
      obtain rfl : d = c := (List.cons.inj text).1
      exact Or.inr (Or.inr (Or.inr ⟨Element.isWord_of_kind? kind, first⟩))
  | _ => exact nomatch kind

theorem Spells.isDigit_iff (h : k.Spells (c :: rest)) : c.isDigit = true ↔ k = .number := by
  rcases h.first_cases with
    ⟨p, rfl, spelled⟩ | ⟨rfl, rfl⟩ | ⟨rfl, digit⟩ | ⟨word, first⟩
  · cases p <;> obtain ⟨rfl, -⟩ := List.cons.inj spelled <;> decide
  · decide
  · exact iff_of_true digit rfl
  · rw [Element.isDigit_eq_false_of_isWordStart first]
    refine iff_of_false Bool.false_ne_true ?_
    rintro rfl
    exact nomatch word

theorem Spells.isWordRest_iff (h : k.Spells (c :: rest)) :
    isWordRest c = true ↔ k.isWord = true ∨ k = .number := by
  rcases h.first_cases with
    ⟨p, rfl, spelled⟩ | ⟨rfl, rfl⟩ | ⟨rfl, digit⟩ | ⟨word, first⟩
  · cases p <;> obtain ⟨rfl, -⟩ := List.cons.inj spelled <;> decide
  · decide
  · exact iff_of_true (Rule.letter_or_digit_iff.1 (Or.inr (Rule.digit_iff.2 digit))) (Or.inr rfl)
  · exact iff_of_true (Rule.letter_or_digit_iff.1 (Or.inl (Rule.letter_iff.2 first))) (Or.inl word)

theorem Spells.exists_punctuator (h : k.Spells (c :: rest)) (notQuote : c ≠ '"')
    (notDigit : c.isDigit = false) (notWord : isWordStart c = false) :
    ∃ p, k = .punctuator p ∧ p.spelling.toList = c :: rest := by
  rcases h.first_cases with found | ⟨rfl, quote⟩ | ⟨rfl, digit⟩ | ⟨word, first⟩
  · exact found
  · exact absurd quote notQuote
  · rw [notDigit] at digit
    exact nomatch digit
  · rw [notWord] at first
    exact nomatch first

theorem Spells.equal_iff (h : k.Spells (c :: rest)) :
    (c == '=') = true ↔ k = .punctuator .equal ∨ k = .punctuator .equalEqual := by
  rw [beq_iff_eq]
  constructor
  · rintro rfl
    obtain ⟨p, rfl, spelled⟩ := h.exists_punctuator (by decide) (by decide) (by decide)
    cases p with
    | equal => exact Or.inl rfl
    | equalEqual => exact Or.inr rfl
    | _ => exact absurd (List.cons.inj spelled).1 (by decide)
  · rintro (rfl | rfl)
    · exact (List.cons.inj (show _ :: _ = ['='] from h)).1
    · exact (List.cons.inj (show _ :: _ = ['=', '='] from h)).1

theorem Spells.slash_iff (h : k.Spells (c :: rest)) :
    (c == '/') = true ↔ k = .punctuator .slash := by
  rw [beq_iff_eq]
  constructor
  · rintro rfl
    obtain ⟨p, rfl, spelled⟩ := h.exists_punctuator (by decide) (by decide) (by decide)
    cases p with
    | slash => rfl
    | _ => exact absurd (List.cons.inj spelled).1 (by decide)
  · rintro rfl
    exact (List.cons.inj (show _ :: _ = ['/'] from h)).1

theorem Spells.eq_dot (h : k.Spells ('.' :: rest)) : k = .punctuator .dot ∧ rest = [] := by
  obtain ⟨p, rfl, spelled⟩ := h.exists_punctuator (by decide) (by decide) (by decide)
  cases p with
  | dot => exact ⟨rfl, (List.cons.inj spelled).2.symm⟩
  | _ => exact absurd (List.cons.inj spelled).1 (by decide)

end Kind

-- ── What follows a token ────────────

namespace Printed

open Element

/-- A token of one of some kinds follows at once. -/
def Meets (t : Printed) (kinds : Kind → Prop) : List Printed → Prop
  | [] => False
  | u :: _ => t.gap = "" ∧ kinds u.kind

variable {t : Printed} {ts : List Printed}

theorem clash_cons_iff : Clash (t :: ts) ↔
    t.Meets t.kind.Merges ts ∨
      (t.kind = .number ∧ '.' ∉ t.lexeme.toList ∧
        ∃ u us, ts = u :: us ∧ t.gap = "" ∧ u.kind = .punctuator .dot ∧
          u.Meets (· = .number) us) := by
  constructor
  · intro clash
    cases clash with
    | pair gap merges => exact Or.inl ⟨gap, merges⟩
    | point number whole gap dot gap' number' =>
        exact Or.inr ⟨number, whole, _, _, rfl, gap, dot, gap', number'⟩
  · rintro (meets | ⟨number, whole, u, us, rfl, gap, dot, meets⟩)
    · cases ts with
      | nil => exact meets.elim
      | cons u us => exact Clash.pair meets.1 meets.2
    · cases us with
      | nil => exact meets.elim
      | cons v vs => exact Clash.point number whole gap dot meets.1 meets.2

/-- What is written after a token begins with a class of characters exactly if a token of the kinds
that begin with it follows at once. -/
theorem avoids_iff {p : Char → Bool} {kinds : Kind → Prop}
    (blank : p ' ' = false ∧ p '\r' = false ∧ p '\t' = false ∧ p '\n' = false)
    (first : ∀ {k c rest}, Kind.Spells k (c :: rest) → (p c = true ↔ kinds k))
    (separator : Separator t.gap.toList) (good : ∀ u ∈ ts, u.WellFormed) :
    Avoids p (t.gap.toList ++ text ts) ↔ ¬ t.Meets kinds ts := by
  rcases separator with empty | ⟨c, rest, gap, hc, -⟩
  · cases ts with
    | nil =>
        rw [empty]
        exact iff_of_true (avoids_nil p) id
    | cons u us =>
        have spells := (good u List.mem_cons_self).spells
        obtain ⟨c, rest, lexeme⟩ := List.exists_cons_of_ne_nil spells.ne_nil
        rw [lexeme] at spells
        have begins : Avoids p (t.gap.toList ++ text (u :: us)) ↔ p c = false := by
          rw [empty, text, List.flatMap_cons, lexeme]
          exact ⟨fun avoids => avoids c rfl, avoids_cons⟩
        rw [begins, ← Bool.not_eq_true, first spells]
        have touches : t.gap = "" := String.toList_eq_nil_iff.1 empty
        exact ⟨fun other meets => other meets.2, fun apart kind => apart ⟨touches, kind⟩⟩
  · refine iff_of_true ?_ ?_
    · rw [gap]
      obtain ⟨space, carriageReturn, tab, newline⟩ := blank
      rcases isBlank_iff.1 hc with rfl | rfl | rfl | rfl
      · exact avoids_cons space
      · exact avoids_cons carriageReturn
      · exact avoids_cons tab
      · exact avoids_cons newline
    · intro meets
      cases ts with
      | nil => exact meets
      | cons u us =>
          rw [meets.1] at gap
          exact nomatch gap

theorem Meets.mono {kinds others : Kind → Prop} (h : ∀ k, kinds k → others k)
    (meets : t.Meets kinds ts) : t.Meets others ts := by
  cases ts with
  | nil => exact meets
  | cons u us => exact ⟨meets.1, h u.kind meets.2⟩

theorem meets_congr {kinds others : Kind → Prop} (h : ∀ k, kinds k ↔ others k) :
    t.Meets kinds ts ↔ t.Meets others ts :=
  ⟨Meets.mono fun k => (h k).1, Meets.mono fun k => (h k).2⟩

theorem avoids_isDigit_iff (separator : Separator t.gap.toList)
    (good : ∀ u ∈ ts, u.WellFormed) :
    Avoids Char.isDigit (t.gap.toList ++ text ts) ↔ ¬ t.Meets (· = .number) ts :=
  avoids_iff (by decide) Kind.Spells.isDigit_iff separator good

/-- A point and a digit come next exactly if they are those of a point token and a number. -/
theorem point_iff (separator : Separator t.gap.toList) (good : ∀ u ∈ ts, u.WellFormed) :
    (∀ d more, t.gap.toList ++ text ts = '.' :: d :: more → d.isDigit = false) ↔
      ¬ ∃ u us, ts = u :: us ∧ t.gap = "" ∧ u.kind = .punctuator .dot ∧
        u.Meets (· = .number) us := by
  constructor
  · rintro noDigit ⟨u, us, rfl, gap, dot, meets⟩
    have wellFormed := good u List.mem_cons_self
    have lexeme : u.lexeme.toList = ['.'] := by
      have spells := wellFormed.spells
      rw [dot] at spells
      exact spells
    have later := fun v hv => good v (List.mem_cons_of_mem u hv)
    -- The number after the point token begins with a digit, right after the point.
    have digit := mt (avoids_isDigit_iff wellFormed.separator later).1 (not_not_intro meets)
    obtain ⟨d, more, rest, hd⟩ := Avoids.of_not digit
    have follows : t.gap.toList ++ text (u :: us) = '.' :: d :: more := by
      rw [gap, text, List.flatMap_cons, lexeme, ← rest]
      rfl
    rw [noDigit d more follows] at hd
    exact nomatch hd
  · intro noPoint d more follows
    by_contra digit
    rcases separator with empty | ⟨c, rest, gap, hc, -⟩
    · rw [empty] at follows
      cases ts with
      | nil => exact nomatch follows
      | cons u us =>
          have wellFormed := good u List.mem_cons_self
          have spells := wellFormed.spells
          obtain ⟨c, rest, lexeme⟩ := List.exists_cons_of_ne_nil spells.ne_nil
          rw [List.nil_append, text, List.flatMap_cons, lexeme, List.append_assoc,
            List.cons_append] at follows
          obtain ⟨rfl, tail⟩ := List.cons.inj follows
          rw [lexeme] at spells
          obtain ⟨dot, rfl⟩ := spells.eq_dot
          refine noPoint ⟨u, us, rfl, String.toList_eq_nil_iff.1 empty, dot, ?_⟩
          by_contra apart
          have later := fun v hv => good v (List.mem_cons_of_mem u hv)
          have avoids := (avoids_isDigit_iff wellFormed.separator later).2 apart
          exact digit (avoids d (congrArg List.head? tail))
    · rw [gap] at follows
      obtain rfl := (List.cons.inj follows).1
      exact absurd hc (by decide)

end Printed

namespace Kind

variable {l : Kind}

theorem merges_punctuator_iff {p : Punctuator} : (punctuator p).Merges l ↔
    (p.withEqual? ≠ none ∧ (l = .punctuator .equal ∨ l = .punctuator .equalEqual)) ∨
      (p = .slash ∧ l = .punctuator .slash) := by
  constructor
  · intro merges
    cases merges with
    | words word _ => exact nomatch word
    | wordNumber word => exact nomatch word
    | @equals p q hp hq =>
        refine Or.inl ⟨?_, ?_⟩
        · simp only [List.mem_cons, List.not_mem_nil, or_false] at hp
          rcases hp with rfl | rfl | rfl | rfl <;> exact nofun
        · simp only [List.mem_cons, List.not_mem_nil, or_false] at hq
          rcases hq with rfl | rfl
          · exact Or.inl rfl
          · exact Or.inr rfl
    | slashes => exact Or.inr ⟨rfl, rfl⟩
  · rintro (⟨longer, equal⟩ | ⟨rfl, rfl⟩)
    · have sign : p ∈ [.bang, .equal, .less, .greater] := by
        cases p <;> first | decide | exact absurd rfl longer
      rcases equal with rfl | rfl
      · exact Merges.equals sign (by decide)
      · exact Merges.equals sign (by decide)
    · exact Merges.slashes

theorem merges_number_iff : Merges .number l ↔ l = .number := by
  constructor
  · intro merges
    cases merges with
    | words word _ => exact nomatch word
    | wordNumber word => exact nomatch word
    | numbers => rfl
  · rintro rfl
    exact Merges.numbers

theorem not_merges_string : ¬ Merges .string l := by
  intro merges
  cases merges with
  | words word _ => exact nomatch word
  | wordNumber word => exact nomatch word

theorem merges_word_iff {k : Kind} (word : k.isWord = true) :
    k.Merges l ↔ l.isWord = true ∨ l = .number := by
  constructor
  · intro merges
    cases merges with
    | words _ other => exact Or.inl other
    | wordNumber _ => exact Or.inr rfl
    | _ => exact nomatch word
  · rintro (other | rfl)
    · exact Merges.words word other
    · exact Merges.wordNumber word

end Kind

-- ── Where elements of tokens end ────

namespace Element

/-- A number has a fraction exactly if it has a point. -/
theorem point_mem_number_iff {whole fraction : List Char}
    (good : (number whole fraction).WellFormed) :
    '.' ∈ (number whole fraction).text ↔ fraction ≠ [] := by
  cases fraction with
  | nil =>
      refine iff_of_false ?_ (not_not_intro rfl)
      intro point
      exact absurd (good.2.1 '.' point) (by decide)
  | cons d fraction =>
      refine iff_of_true ?_ (List.cons_ne_nil _ _)
      exact List.mem_append_right whole List.mem_cons_self

open Printed in
/-- **Ends.** The element of a token ends before what is written after it exactly if nothing clashes
there. -/
theorem endsBefore_iff {e : Element} {t : Printed} {ts : List Printed}
    (stands : e.Stands t.kind t.lexeme.toList)
    (separator : Separator t.gap.toList) (good : ∀ u ∈ ts, u.WellFormed) :
    e.EndsBefore (t.gap.toList ++ Printed.text ts) ↔ ¬ Clash (t :: ts) := by
  obtain ⟨wellFormed, text, kind⟩ := stands
  rw [clash_cons_iff]
  cases e with
  | punctuator p =>
      obtain own : .punctuator p = t.kind := Option.some.inj kind
      have equal := avoids_iff (by decide) Kind.Spells.equal_iff separator good
      have slash := avoids_iff (by decide) Kind.Spells.slash_iff separator good
      rw [EndsBefore, equal, slash, ← own, meets_congr fun l => Kind.merges_punctuator_iff]
      constructor
      · rintro ⟨noEqual, noSlash⟩ (meets | ⟨number, -⟩)
        · cases ts with
          | nil => exact meets
          | cons u us =>
              obtain ⟨gap, ⟨longer, sign⟩ | ⟨short, sign⟩⟩ := meets
              · exact noEqual longer ⟨gap, sign⟩
              · exact noSlash short ⟨gap, sign⟩
        · exact nomatch number
      · intro apart
        refine ⟨?_, ?_⟩
        · intro longer meets
          exact apart (Or.inl (meets.mono fun l sign => Or.inl ⟨longer, sign⟩))
        · intro short meets
          exact apart (Or.inl (meets.mono fun l sign => Or.inr ⟨short, sign⟩))
  | string body =>
      obtain own : .string = t.kind := Option.some.inj kind
      refine iff_of_true trivial ?_
      rw [← own]
      rintro (meets | ⟨number, -⟩)
      · cases ts with
        | nil => exact meets
        | cons u us => exact Kind.not_merges_string meets.2
      · exact nomatch number
  | number whole fraction =>
      obtain own : .number = t.kind := Option.some.inj kind
      have digits := avoids_isDigit_iff separator good
      have point := point_mem_number_iff wellFormed
      rw [text] at point
      rw [← own, meets_congr fun l => Kind.merges_number_iff, not_or, point, ← digits]
      cases fraction with
      | nil =>
          rw [EndsBefore, point_iff separator good]
          refine and_congr Iff.rfl (not_congr ?_)
          exact ⟨fun clash => ⟨rfl, fun other => other rfl, clash⟩, fun clash => clash.2.2⟩
      | cons d fraction =>
          refine ⟨fun avoids => ⟨avoids, ?_⟩, And.left⟩
          exact fun clash => clash.2.1 (List.cons_ne_nil _ _)
  | word letters =>
      have isWord := isWord_of_kind? kind
      have rest := avoids_iff (by decide) Kind.Spells.isWordRest_iff separator good
      rw [EndsBefore, rest, meets_congr fun l => Kind.merges_word_iff isWord]
      refine not_congr ⟨Or.inl, ?_⟩
      rintro (meets | ⟨number, -⟩)
      · exact meets
      · rw [number] at isWord
        exact nomatch isWord
  | _ => exact nomatch kind

-- ── Rows of tokens and trivia ───────

/-- Trivia is made up of elements that are not found and end before anything. -/
theorem exists_row_of_trivia {gap : List Char} (h : Trivia gap) :
    ∃ es : List Element, es.flatMap text = gap ∧ (∀ fs, Tiled fs → Tiled (es ++ fs)) ∧
      ∀ p, (Placed.lay p es).filterMap Finding.ofPlaced? = [] := by
  induction h with
  | nil => exact ⟨[], rfl, fun _ tiled => tiled, fun _ => rfl⟩
  | @blank c rest hc _ ih =>
      obtain ⟨es, rfl, tiled, faultless⟩ := ih
      refine ⟨.blank c :: es, rfl, ?_, ?_⟩
      · intro fs later
        exact Tiled.cons hc trivial (tiled fs later)
      · intro p
        exact faultless _
  | @comment body rest hb _ ih =>
      obtain ⟨es, rfl, tiled, faultless⟩ := ih
      -- A comment leaves its line feed unread, which is then a blank of its own.
      refine ⟨.comment body :: .blank '\n' :: es, ?_, ?_, ?_⟩
      · rw [List.flatMap_cons, List.flatMap_cons]
        rfl
      · intro fs later
        exact Tiled.cons hb (avoids_cons (by decide)) (Tiled.cons (by rfl) trivial (tiled fs later))
      · intro p
        exact faultless _

theorem exists_row_of_separator {gap : List Char} (h : Separator gap) :
    ∃ es : List Element, es.flatMap text = gap ∧ (∀ fs, Tiled fs → Tiled (es ++ fs)) ∧
      ∀ p, (Placed.lay p es).filterMap Finding.ofPlaced? = [] := by
  rcases h with rfl | ⟨c, rest, rfl, hc, trivia⟩
  · exact exists_row_of_trivia Trivia.nil
  · exact exists_row_of_trivia (Trivia.blank hc trivia)

end Element

namespace Placed

variable {q : Placed}

/-- A placed element of a token is found as that token. -/
theorem exists_token {t : Printed} (stands : q.element.Stands t.kind t.lexeme.toList)
    (fits : q.stop.offset ≤ Word.largest) :
    ∃ u, Finding.ofPlaced? q = some (.token u) ∧
      u.spot = ⟨t.kind, t.lexeme, q.start.offset, q.start.offset + t.lexeme.utf8ByteSize⟩ := by
  obtain ⟨-, text, kind⟩ := stands
  obtain ⟨start, stop⟩ := toNat_span fits
  have lexeme : String.ofList q.element.text = t.lexeme := by rw [text, String.ofList_toList]
  obtain ⟨u, found, kind', lexeme', span⟩ : ∃ u, Finding.ofPlaced? q = some (.token u) ∧
      u.kind = t.kind ∧ u.lexeme = String.ofList q.element.text ∧ u.span = q.span := by
    obtain ⟨e, start⟩ := q
    cases e with
    | punctuator p => exact ⟨_, rfl, Option.some.inj kind, rfl, rfl⟩
    | string body => exact ⟨_, rfl, Option.some.inj kind, rfl, rfl⟩
    | number whole fraction => exact ⟨_, rfl, Option.some.inj kind, rfl, rfl⟩
    | word letters => exact ⟨_, rfl, Option.some.inj kind, rfl, rfl⟩
    | _ => exact nomatch kind
  refine ⟨u, found, ?_⟩
  rw [Token.spot, kind', lexeme', lexeme, span, start, stop, text, byteLength_toList]

theorem spot_of_token {u : Token} (found : Finding.ofPlaced? q = some (.token u))
    (fits : q.stop.offset ≤ Word.largest) :
    q.element.kind? = some u.kind ∧ u.lexeme.toList = q.element.text ∧
      u.spot.start = q.start.offset := by
  obtain ⟨start, -⟩ := toNat_span fits
  obtain ⟨e, p⟩ := q
  cases e <;> cases found <;> exact ⟨rfl, String.toList_ofList, start⟩

end Placed

namespace Printed

open Element

theorem text_cons (t : Printed) (ts : List Printed) :
    text (t :: ts) = t.lexeme.toList ++ (t.gap.toList ++ text ts) := by
  rw [text, List.flatMap_cons, List.append_assoc]
  rfl

/-- **Rows.** Where nothing clashes, tokens and separators are a row of elements that reads back,
and what is found in it are the tokens in their places. -/
theorem exists_row {ts : List Printed} (good : ∀ t ∈ ts, t.WellFormed)
    (clear : ∀ rest, rest <:+ ts → ¬ Clash rest) :
    ∃ es : List Element, es.flatMap Element.text = text ts ∧ Tiled es ∧
      ∀ p : Position, p.offset + byteLength (text ts) ≤ Word.largest →
        ∃ found : List Token, (Placed.lay p es).filterMap Finding.ofPlaced? =
          found.map Finding.token ∧
          found.map Token.spot = spots p.offset ts := by
  induction ts with
  | nil => exact ⟨[], rfl, Tiled.nil, fun _ _ => ⟨[], rfl, rfl⟩⟩
  | cons t ts ih =>
      have later := fun u hu => good u (List.mem_cons_of_mem t hu)
      obtain ⟨es, row, tiled, places⟩ := ih later fun rest suffix =>
        clear rest (suffix.trans (List.suffix_cons t ts))
      obtain ⟨spells, separator⟩ := good t List.mem_cons_self
      obtain ⟨e, stands⟩ := exists_stands spells
      obtain ⟨gs, gap, keeps, silent⟩ := exists_row_of_separator separator
      have whole : (gs ++ es).flatMap Element.text = t.gap.toList ++ text ts := by
        rw [List.flatMap_append, gap, row]
      refine ⟨e :: (gs ++ es), ?_, ?_, ?_⟩
      · rw [List.flatMap_cons, whole, stands.text, text_cons]
      · refine Tiled.cons stands.wellFormed ?_ (keeps es tiled)
        rw [whole]
        exact (endsBefore_iff stands separator later).2 (clear _ List.suffix_rfl)
      · intro p fits
        rw [text_cons, byteLength_append, byteLength_append] at fits
        obtain ⟨u, token, spot⟩ := Placed.exists_token (q := ⟨e, p⟩) stands (by
          rw [Placed.stop_offset]
          show p.offset + byteLength e.text ≤ _
          rw [stands.text]
          omega)
        have offset : ((p.advance e.text).advance (gs.flatMap Element.text)).offset =
            p.offset + t.lexeme.utf8ByteSize + t.gap.utf8ByteSize := by
          rw [Position.offset_advance, Position.offset_advance, stands.text, gap, byteLength_toList,
            byteLength_toList]
        obtain ⟨found, tokens, spots⟩ :=
          places ((p.advance e.text).advance (gs.flatMap Element.text)) (by
          rw [offset, ← byteLength_toList, ← byteLength_toList]
          omega)
        refine ⟨u :: found, ?_, ?_⟩
        · rw [Placed.lay_cons, Placed.lay_append, List.filterMap_cons_some token,
            List.filterMap_append, silent, tokens]
          rfl
        · rw [List.map_cons, spot, spots, offset]
          rfl

theorem text_append (ts us : List Printed) : text (ts ++ us) = text ts ++ text us :=
  List.flatMap_append

theorem mem_spots (start : Nat) (before : List Printed) (t : Printed) (after : List Printed) :
    ⟨t.kind, t.lexeme, start + byteLength (text before),
        start + byteLength (text before) + t.lexeme.utf8ByteSize⟩ ∈
      spots start (before ++ t :: after) := by
  induction before generalizing start with
  | nil => exact List.mem_cons_self
  | cons u before ih =>
      have later := ih (start + u.lexeme.utf8ByteSize + u.gap.utf8ByteSize)
      have offset : start + byteLength (text (u :: before)) =
          start + u.lexeme.utf8ByteSize + u.gap.utf8ByteSize + byteLength (text before) := by
        rw [text_cons, byteLength_append, byteLength_append, byteLength_toList, byteLength_toList]
        omega
      rw [offset]
      exact List.mem_cons_of_mem _ later

theorem toList_write (gap : String) (ts : List Printed) :
    (write gap ts).toList = gap.toList ++ text ts := by
  rw [write, String.toList_append, String.toList_ofList]

end Printed

-- ── Scanning what was written ───────

/-- A scan reports nothing, and finds the given tokens in their places and then the end. -/
structure Scan.Exact (s : Scan) (spots : List Spot) (size : Nat) : Prop where
  diagnostics : s.diagnostics = []
  tokens : s.tokens.map Token.spot = spots ++ [⟨.eof, "", size, size⟩]

section Written

open Element Printed

variable {gap : List Char} {ts : List Printed}

/-- Nothing clashes in a text that scans as it was written: each token is a whole element there. -/
theorem Scan.Exact.not_clash (good : ∀ t ∈ ts, t.WellFormed)
    (short : byteLength (gap ++ text ts) < Word.largest)
    (exact_ : (Scan.ofList (gap ++ text ts)).Exact (spots (byteLength gap) ts)
      (byteLength (gap ++ text ts)))
    {rest : List Printed} (suffix : rest <:+ ts) : ¬ Clash rest := by
  obtain ⟨before, rfl⟩ := suffix
  cases rest with
  | nil => exact nofun
  | cons t us =>
      obtain ⟨spells, separator⟩ := good t (List.mem_append_right before List.mem_cons_self)
      have later : ∀ u ∈ us, u.WellFormed := fun u hu =>
        good u (List.mem_append_right before (List.mem_cons_of_mem t hu))
      obtain ⟨u, hu, spot⟩ : ∃ u ∈ (ofList (gap ++ text (before ++ t :: us))).tokens,
          u.spot = ⟨t.kind, t.lexeme, byteLength gap + byteLength (text before),
            byteLength gap + byteLength (text before) + t.lexeme.utf8ByteSize⟩ := by
        refine List.mem_map.1 ?_
        rw [exact_.tokens]
        exact List.mem_append_left _ (mem_spots (byteLength gap) before t us)
      rcases exists_of_mem_tokens hu with ⟨q, hq, found⟩ | rfl
      · have fits : q.stop.offset ≤ Word.largest :=
          Nat.le_of_lt (Nat.lt_of_le_of_lt (Placed.stop_offset_le hq) short)
        obtain ⟨kind, lexeme, offset⟩ := Placed.spot_of_token found fits
        obtain ⟨left, right, whole, between⟩ := Placed.between_of_mem_lay hq
        have stands : q.element.Stands t.kind t.lexeme.toList := by
          refine ⟨between.wellFormed, ?_, ?_⟩
          · rw [← lexeme]
            exact congrArg (String.toList ∘ Spot.lexeme) spot
          · rw [kind]
            exact congrArg (some ∘ Spot.kind) spot
        -- The place of the token and the place where it was laid down cut the text alike.
        have cut : byteLength left = byteLength (gap ++ text before) := by
          rw [← between.start_offset, ← offset, spot, byteLength_append]
        have laidDown := splitAt?_append (gap ++ text before) (text (t :: us))
        have foundThere := splitAt?_append left (q.element.text ++ right)
        rw [text_append, ← List.append_assoc] at whole
        rw [← List.append_assoc, ← whole, cut, laidDown, text_cons, stands.text] at foundThere
        obtain ⟨-, cut⟩ := Prod.mk.inj (Option.some.inj foundThere)
        have rest := List.append_cancel_left cut
        rw [← endsBefore_iff stands separator later, rest]
        exact between.ends
      · have kind : Kind.eof = t.kind := congrArg Spot.kind spot
        rw [← kind] at spells
        exact spells.elim

/-- A text in which nothing clashes scans as it was written. -/
theorem Scan.exact_of_not_clash (separator : Separator gap) (good : ∀ t ∈ ts, t.WellFormed)
    (short : byteLength (gap ++ text ts) < Word.largest)
    (clear : ∀ rest, rest <:+ ts → ¬ Clash rest) :
    (Scan.ofList (gap ++ text ts)).Exact (spots (byteLength gap) ts)
      (byteLength (gap ++ text ts)) := by
  obtain ⟨gs, rfl, keeps, silent⟩ := exists_row_of_separator separator
  obtain ⟨es, row, tiled, places⟩ := exists_row good clear
  have offset := Position.offset_origin_advance (gs.flatMap Element.text)
  -- The row that was put together is the one that is read.
  have tile : Element.tile (gs.flatMap Element.text ++ text ts) = gs ++ es := by
    refine tile_eq_iff.2 ⟨?_, keeps es tiled⟩
    rw [List.flatMap_append, row]
  obtain ⟨found, tokens, spots⟩ :=
    places (Position.origin.advance (gs.flatMap Element.text)) (by
    rw [offset, ← byteLength_append]
    exact Nat.le_of_lt short)
  have findings : (Scan.ofList (gs.flatMap Element.text ++ text ts)).findings =
      found.map Finding.token := by
    rw [Scan.ofList, tile]
    show (Placed.lay _ _).filterMap _ = _
    rw [Placed.lay_append, List.filterMap_append, silent, tokens]
    rfl
  have finish := Scan.start_eof short
  constructor
  · have faultless : (found.map Finding.token).filterMap Finding.fault? = [] := by
      rw [List.filterMap_map]
      exact List.filterMap_eq_nil_iff.2 fun _ _ => rfl
    rw [Scan.diagnostics, Scan.faults, findings, faultless]
    rfl
  · have all : (found.map Finding.token).filterMap Finding.token? = found := by
      rw [List.filterMap_map]
      exact List.filterMap_some
    have last : (Scan.ofList (gs.flatMap Element.text ++ text ts)).eof.spot =
        ⟨.eof, "", byteLength (gs.flatMap Element.text ++ text ts),
          byteLength (gs.flatMap Element.text ++ text ts)⟩ :=
      congrArg₂ (Spot.mk .eof "") finish finish
    rw [Scan.tokens, findings, all, List.map_append, spots, offset, List.map_singleton, last]

end Written

/-- **Writing and scanning.** Tokens and separators scan as they were written exactly if no tokens
that would run together have only empty separators between them. -/
theorem scan_write_iff (gap : String) (ts : List Printed) (separator : Separator gap.toList)
    (good : ∀ t ∈ ts, t.WellFormed)
    (short : (Printed.write gap ts).utf8ByteSize < Word.largest) :
    (Scan.ofString (Printed.write gap ts)).Exact (Printed.spots gap.utf8ByteSize ts)
        (Printed.write gap ts).utf8ByteSize ↔
      ∀ rest, rest <:+ ts → ¬ Printed.Clash rest := by
  rw [← byteLength_toList, Printed.toList_write] at short
  rw [Scan.ofString, ← byteLength_toList (Printed.write gap ts), Printed.toList_write,
    ← byteLength_toList gap]
  exact ⟨fun exact_ rest => exact_.not_clash good short,
    Scan.exact_of_not_clash separator good short⟩

/-- A word, a comment, a sign and a number that touches it. -/
def Printed.mixed : List Printed :=
  [⟨.identifier, "x", "\t//c\n"⟩, ⟨.punctuator .bangEqual, "!=", ""⟩,
    ⟨.number, "1", ""⟩]

theorem scan_write_iff_mixed :
    Separator " ".toList ∧ (∀ t ∈ Printed.mixed, t.WellFormed) ∧
      (Printed.write " " Printed.mixed).utf8ByteSize < Word.largest ∧
      ((Scan.ofString (Printed.write " " Printed.mixed)).Exact
          (Printed.spots " ".utf8ByteSize Printed.mixed)
          (Printed.write " " Printed.mixed).utf8ByteSize ↔
        ∀ rest, rest <:+ Printed.mixed → ¬ Printed.Clash rest) := by
  have separator : Separator " ".toList := Or.inr ⟨' ', [], rfl, rfl, Trivia.nil⟩
  have short : (Printed.write " " Printed.mixed).utf8ByteSize < Word.largest := by decide
  have good : ∀ t ∈ Printed.mixed, t.WellFormed := by
    intro t ht
    simp only [Printed.mixed, List.mem_cons, List.not_mem_nil, or_false] at ht
    rcases ht with rfl | rfl | rfl
    · refine ⟨⟨Rule.Spells.word (Rule.letter_iff.2 (by decide)) nofun, ?_⟩, ?_⟩
      · intro k
        cases k <;> decide
      · refine Or.inr ⟨'\t', _, rfl, rfl, ?_⟩
        exact Trivia.comment (show '\n' ∉ ['c'] by decide) Trivia.nil
    · exact ⟨rfl, Or.inl rfl⟩
    · refine ⟨Rule.Spells.whole (by decide) ?_, Or.inl rfl⟩
      intro d hd
      obtain rfl := List.mem_singleton.1 hd
      exact Rule.digit_iff.2 (by decide)
  exact ⟨separator, good, short, scan_write_iff _ _ separator good short⟩

end LoxScan
