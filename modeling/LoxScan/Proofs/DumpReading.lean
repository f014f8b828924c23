import LoxScan.Proofs.Encoding
import LoxScan.Proofs.Placement
import LoxScan.Proofs.Rendering

/-!
# Reading dumps

A dump has no escapes. A string is printed as it stands, with the line feeds and blanks that it goes
over, and may look like any other lines of a dump; with values its body even comes twice. All the
same a dump can be read, because of what a scan leaves out of a lexeme. A string has just two
quotes, so it is over at the second one, and its value is as long as its body. Any other lexeme goes
over neither a blank nor a line feed, and the value of a number over no line feed either. And before
every lexeme stands the name of its kind, with no blank in it, which says how to read on.

So a dump is read line by line from the front, where a line may be several, and an induction over
the tokens says that it gives them back.

* **`legible_of_mem_tokens`**: of every token of a scan this is so.
* **`readLine_dumpLine`**: the line of such a token is read off the front of any text.
* **`read_dump`**: so its lines are read off a dump, one after another.
* **`dump_decodable`**: what is printed of a source gives the kinds and lexemes of its tokens back.
-/

namespace LoxScan

open Utf8 Element

-- ── Reading ─────────────────────────

namespace Dump

/-- Whether a character is neither a blank nor a line feed. -/
def isSolid (c : Char) : Bool :=
  c ≠ ' ' && c ≠ '\n'

/-- Reads a lexeme of a kind: a string up to its second quote, any other up to a blank or the end of
the line. -/
def readLexeme (kind : Kind) (text : List Char) : List Char × List Char :=
  if kind = .string then
    ('"' :: (text.drop 1).takeWhile (· ≠ '"') ++ ['"'],
      ((text.drop 1).dropWhile (· ≠ '"')).drop 1)
  else (text.takeWhile isSolid, text.dropWhile isSolid)

/-- Skips the value after a lexeme and the end of the line. That of a string is as long as its body,
and the blank before it makes it one longer. -/
def skipValue (literals : Bool) (kind : Kind) (lexeme text : List Char) : List Char :=
  ((text.drop (if literals = true ∧ kind = .string then lexeme.length - 1 else 0)).dropWhile
    (· ≠ '\n')).drop 1

/-- Reads the line of a token. Gives its kind and lexeme, if there is a kind of this name, and what
is left of the text. -/
def readLine (literals : Bool) (text : List Char) : Option ((Kind × String) × List Char) :=
  match Kind.ofName? (String.ofList (text.takeWhile (· ≠ ' '))) with
  | none => none
  | some kind =>
    let found := readLexeme kind ((text.dropWhile (· ≠ ' ')).drop 1)
    some ((kind, String.ofList found.1), skipValue literals kind found.1 found.2)

theorem length_readLexeme_le (kind : Kind) (text : List Char) :
    (readLexeme kind text).2.length ≤ text.length := by
  rw [readLexeme]
  split
  case isTrue =>
    have quoted := List.length_dropWhile_le (· ≠ '"') (text.drop 1)
    simp only [List.length_drop] at quoted ⊢
    omega
  case isFalse => exact List.length_dropWhile_le ..

theorem length_skipValue_le (literals : Bool) (kind : Kind) (lexeme text : List Char) :
    (skipValue literals kind lexeme text).length ≤ text.length := by
  rw [skipValue, List.length_drop]
  refine Nat.le_trans (Nat.sub_le ..) (Nat.le_trans (List.length_dropWhile_le ..) ?_)
  rw [List.length_drop]
  exact Nat.sub_le ..

/-- A line takes at least the blank after the name. -/
theorem length_readLine_lt {literals : Bool} {c : Char} {text rest : List Char}
    {entry : Kind × String}
    (h : readLine literals (c :: text) = some (entry, rest)) :
    rest.length < (c :: text).length := by
  rw [readLine] at h
  split at h
  case h_1 => exact nomatch h
  case h_2 kind _ =>
    obtain ⟨-, rfl⟩ := Prod.mk.inj (Option.some.inj h)
    refine Nat.lt_of_le_of_lt (length_skipValue_le ..)
      (Nat.lt_of_le_of_lt (length_readLexeme_le ..) ?_)
    have named := List.length_dropWhile_le (· ≠ ' ') (c :: text)
    rw [List.length_drop]
    rw [List.length_cons] at named ⊢
    omega

/-- Reads the kinds and lexemes of a dump. -/
def read (literals : Bool) : List Char → Option (List (Kind × String))
  | [] => some []
  | c :: text =>
    match _h : readLine literals (c :: text) with
    | none => none
    | some (entry, rest) => (read literals rest).map (entry :: ·)
termination_by text => text.length
decreasing_by exact length_readLine_lt _h

/-- Reads the kinds and lexemes of a dump in bytes. -/
def decode? (literals : Bool) (bytes : List UInt8) : Option (List (Kind × String)) :=
  (Utf8.decode? bytes).bind (read literals)

theorem read_of_readLine {literals : Bool} {c : Char} {text rest : List Char}
    {entry : Kind × String}
    (h : readLine literals (c :: text) = some (entry, rest)) :
    read literals (c :: text) = (read literals rest).map (entry :: ·) := by
  rw [read]
  split
  case h_1 stuck => exact nomatch stuck.symm.trans h
  case h_2 entry' rest' found =>
    obtain ⟨rfl, rfl⟩ := Prod.mk.inj (Option.some.inj (found.symm.trans h))
    rfl

end Dump

-- ── Tokens that can be read ─────────

namespace Token

open Dump

/-- What is printed of the value of a token. -/
def valueText (t : Token) (literals : Bool) : List Char :=
  match t.literal with
  | none => []
  | some literal => if literals then ' ' :: literal.text.toList else []

theorem valueText_cases (t : Token) (literals : Bool) :
    t.valueText literals = [] ∨
      ∃ literal, t.literal = some literal ∧
        t.valueText literals = ' ' :: literal.text.toList := by
  rw [valueText]
  split
  case h_1 => exact Or.inl rfl
  case h_2 literal found =>
    cases literals with
    | false => exact Or.inl rfl
    | true => exact Or.inr ⟨literal, found, rfl⟩

/-- A token can be read in a dump if it is a string between quotes, with what is between them as its
value, or if it goes over no blank and no line feed and its value over no line feed. -/
inductive Legible (t : Token) : Prop
  | string (body : List Char) (kind : t.kind = .string) (closed : '"' ∉ body)
      (lexeme : t.lexeme = String.ofList ('"' :: body ++ ['"']))
      (literal : t.literal = some (.string (String.ofList body)))
  | solid (kind : t.kind ≠ .string) (lexeme : ∀ c ∈ t.lexeme.toList, isSolid c = true)
      (value : ∀ literal, t.literal = some literal → Flat literal.text)

/-- The line of a token is the name of its kind, a blank, its lexeme, what is printed of its value,
and a line feed. -/
theorem toList_dumpLine (t : Token) (literals : Bool) :
    (t.dumpLine literals).toList =
      t.kind.name.toList ++ ' ' :: (t.lexeme.toList ++ (t.valueText literals ++ ['\n'])) := by
  have blank : " ".toList = [' '] := by decide
  have newline : "\n".toList = ['\n'] := by decide
  cases value : t.literal with
  | none => cases literals <;> simp [dumpLine, text, brief, valueText, value, blank, newline]
  | some literal =>
      cases literals <;> simp [dumpLine, text, brief, valueText, value, blank, newline]

end Token

/-- Names of kinds are written with capital letters and underscores. -/
theorem Kind.not_mem_name (k : Kind) {c : Char} (other : (c.isUpper || c == '_') = false) :
    c ∉ k.name.toList := by
  have all : k.name.toList.all (fun c => c.isUpper || c == '_') = true := by
    cases k with
    | punctuator p => cases p <;> decide
    | keyword w => cases w <;> decide
    | _ => decide
  intro inside
  exact Bool.false_ne_true (other.symm.trans (List.all_eq_true.1 all c inside))

theorem Kind.space_not_mem_name (k : Kind) : ' ' ∉ k.name.toList :=
  k.not_mem_name (by decide)

namespace Dump

variable {t : Token} {rest : List Char}

/-- The lexeme of a token is read off the front of a text that goes on with its value. -/
theorem readLexeme_lexeme (legible : t.Legible) (literals : Bool) (rest : List Char) :
    readLexeme t.kind (t.lexeme.toList ++ (t.valueText literals ++ '\n' :: rest)) =
      (t.lexeme.toList, t.valueText literals ++ '\n' :: rest) := by
  cases legible with
  | string body kind closed lexeme literal =>
      have inside : ∀ c ∈ body, decide (c ≠ '"') = true := by
        intro c hc
        exact decide_eq_true (ne_of_mem_of_not_mem hc closed)
      have stop : Avoids (· ≠ '"') ('"' :: (t.valueText literals ++ '\n' :: rest)) :=
        avoids_cons (by decide)
      have text : t.lexeme.toList ++ (t.valueText literals ++ '\n' :: rest) =
          '"' :: (body ++ '"' :: (t.valueText literals ++ '\n' :: rest)) := by
        rw [lexeme, String.toList_ofList]
        simp
      rw [readLexeme, if_pos kind, text, List.drop_one, List.tail_cons,
        takeWhile_append_of_avoids inside stop, dropWhile_append_of_avoids inside stop, lexeme,
        String.toList_ofList]
      rfl
  | solid kind lexeme value =>
      have stop : Avoids isSolid (t.valueText literals ++ '\n' :: rest) := by
        rcases t.valueText_cases literals with valueless | ⟨literal, -, value⟩
        · rw [valueless]
          exact avoids_cons (by decide)
        · rw [value]
          exact avoids_cons (by decide)
      rw [readLexeme, if_neg kind, takeWhile_append_of_avoids lexeme stop,
        dropWhile_append_of_avoids lexeme stop]

/-- Its value is skipped, with the end of the line. -/
theorem skipValue_valueText (legible : t.Legible) (literals : Bool) (rest : List Char) :
    skipValue literals t.kind t.lexeme.toList (t.valueText literals ++ '\n' :: rest) = rest := by
  have ended (value : List Char) (flat : '\n' ∉ value) :
      ((value ++ '\n' :: rest).dropWhile (· ≠ '\n')).drop 1 = rest := by
    have inside : ∀ c ∈ value, decide (c ≠ '\n') = true := by
      intro c hc
      exact decide_eq_true (ne_of_mem_of_not_mem hc flat)
    rw [dropWhile_append_of_avoids inside (avoids_cons (by decide))]
    rfl
  cases legible with
  | string body kind closed lexeme literal =>
      cases literals with
      | false =>
          have valueless : t.valueText false = [] := by
            rw [Token.valueText, literal]
            rfl
          rw [valueless]
          exact ended [] List.not_mem_nil
      | true =>
          have length : t.lexeme.toList.length - 1 = (t.valueText true).length := by
            rw [Token.valueText, literal, lexeme, String.toList_ofList]
            simp [Literal.text]
          rw [skipValue, if_pos ⟨rfl, kind⟩, length, List.drop_left]
          exact ended [] List.not_mem_nil
  | solid kind lexeme value =>
      rw [skipValue, if_neg (fun both => kind both.2), List.drop_zero]
      refine ended _ ?_
      rcases t.valueText_cases literals with valueless | ⟨literal, found, text⟩
      · rw [valueless]
        exact List.not_mem_nil
      · rw [text]
        intro inside
        rcases List.mem_cons.1 inside with blank | inside
        · exact absurd blank (by decide)
        · exact value literal found inside

/-- **One line.** The line of a token is read off the front of any text. -/
theorem readLine_dumpLine (legible : t.Legible) (literals : Bool) (rest : List Char) :
    readLine literals ((t.dumpLine literals).toList ++ rest) = some ((t.kind, t.lexeme), rest) := by
  have inside : ∀ c ∈ t.kind.name.toList, decide (c ≠ ' ') = true := by
    intro c hc
    exact decide_eq_true (ne_of_mem_of_not_mem hc t.kind.space_not_mem_name)
  have stop :
    Avoids (· ≠ ' ') (' ' :: (t.lexeme.toList ++ (t.valueText literals ++ '\n' :: rest))) :=
    avoids_cons (by decide)
  have text : (t.dumpLine literals).toList ++ rest = t.kind.name.toList ++
      ' ' :: (t.lexeme.toList ++ (t.valueText literals ++ '\n' :: rest)) := by
    rw [Token.toList_dumpLine]
    simp
  rw [readLine, text, takeWhile_append_of_avoids inside stop,
    dropWhile_append_of_avoids inside stop, String.ofList_toList, Kind.ofName?_name]
  show some ((t.kind, String.ofList (readLexeme _ _).1), skipValue _ _ (readLexeme _ _).1 _) = _
  rw [List.drop_one, List.tail_cons, readLexeme_lexeme legible, String.ofList_toList,
    skipValue_valueText legible]

/-- **All lines.** The lines of tokens are read off a dump, one after another. -/
theorem read_dump (literals : Bool) {tokens : List Token} (legible : ∀ t ∈ tokens, t.Legible) :
    read literals (tokens.flatMap fun t => (t.dumpLine literals).toList) =
      some (tokens.map fun t => (t.kind, t.lexeme)) := by
  induction tokens with
  | nil => rw [List.flatMap_nil, read, List.map_nil]
  | cons t tokens ih =>
      have line := readLine_dumpLine (legible t List.mem_cons_self) literals
        (tokens.flatMap fun t => (t.dumpLine literals).toList)
      have later := ih fun u hu => legible u (List.mem_cons_of_mem t hu)
      rw [List.flatMap_cons, List.map_cons]
      cases text : (t.dumpLine literals).toList ++
          tokens.flatMap fun t => (t.dumpLine literals).toList with
      | nil =>
          have blank := congrArg List.length text
          rw [Token.toList_dumpLine] at blank
          simp at blank
      | cons c text' =>
          rw [text] at line
          rw [read_of_readLine line, later]
          rfl

/-- A string over three lines, the second of which looks like a line of its own, and its value. -/
example : read true "STRING \"\nEOF \n\" \nEOF \n\nEOF \n".toList =
    some [(.string, "\"\nEOF \n\""), (.eof, "")] := by
  decide +kernel

end Dump

-- ── Numbers ─────────────────────────

theorem Decimal.isDigit_of_mem_padded {n : Decimal} {c : Char} (h : c ∈ n.padded) :
    c.isDigit = true := by
  rcases List.mem_append.1 h with zero | digit
  · obtain rfl := List.eq_of_mem_replicate zero
    decide
  · exact Nat.isDigit_of_mem_toDigits (by decide) (by decide) digit

/-- A numeral has digits and no more than a point. -/
theorem Decimal.flat_text (n : Decimal) : Flat n.text := by
  have whole : '\n' ∉ n.wholeDigits := fun inside =>
    absurd (isDigit_of_mem_padded (List.mem_of_mem_take inside)) (by decide)
  have fraction : '\n' ∉ n.fractionDigits := fun inside =>
    absurd (isDigit_of_mem_padded (List.mem_of_mem_drop inside)) (by decide)
  rw [text, Flat]
  split
  case isTrue =>
    rw [String.toList_ofList]
    exact whole
  case isFalse =>
    rw [String.toList_ofList, List.mem_append, List.mem_cons]
    rintro (inside | point | inside)
    · exact whole inside
    · exact absurd point (by decide)
    · exact fraction inside

theorem Double.flat_text (d : Double) : Flat d.text := by
  have sign : Flat "-" := by decide
  have size : Flat (if d.isInfinite then "inf" else (Decimal.shortest d.abs).text) := by
    split
    case isTrue => decide
    case isFalse => exact Decimal.flat_text _
  rw [text]
  split
  case isTrue => decide
  case isFalse =>
    by_cases negative : d.isNegative = true
    · rw [if_pos negative]
      exact sign.append size
    · rw [if_neg negative]
      exact size

-- ── The tokens of a scan ────────────

namespace Dump

/-- A class of characters without blank and line feed is solid. -/
theorem isSolid_of {p : Char → Bool} (blank : p ' ' = false) (newline : p '\n' = false) {c : Char}
    (h : p c = true) : isSolid c = true := by
  have notBlank : c ≠ ' ' := by
    rintro rfl
    exact nomatch h.symm.trans blank
  have notNewline : c ≠ '\n' := by
    rintro rfl
    exact nomatch h.symm.trans newline
  rw [isSolid, decide_eq_true notBlank, decide_eq_true notNewline]
  rfl

theorem isSolid_of_mem_number {whole fraction : List Char}
    (good : (number whole fraction).WellFormed)
    {c : Char} (h : c ∈ (number whole fraction).text) : isSolid c = true := by
  obtain ⟨-, wholeDigits, fractionDigits⟩ := good
  have digit {d : Char} (hd : d.isDigit = true) : isSolid d = true :=
    isSolid_of (p := Char.isDigit) (by decide) (by decide) hd
  cases fraction with
  | nil => exact digit (wholeDigits c h)
  | cons d fraction =>
      rcases List.mem_append.1 h with inside | inside
      · exact digit (wholeDigits c inside)
      · rcases List.mem_cons.1 inside with rfl | inside
        · decide
        · exact digit (fractionDigits c inside)

theorem isSolid_of_mem_word {letters : List Char} (good : (word letters).WellFormed) {c : Char}
    (h : c ∈ letters) : isSolid c = true := by
  obtain ⟨first, rest, rfl, start, inside⟩ := good
  rcases List.mem_cons.1 h with rfl | h
  · exact isSolid_of (p := isWordStart) (by decide) (by decide) start
  · exact isSolid_of (p := isWordRest) (by decide) (by decide) (inside c h)

end Dump

/-- A punctuator has neither blank nor line feed. -/
theorem Punctuator.isSolid_of_mem_spelling (p : Punctuator) {c : Char}
    (h : c ∈ p.spelling.toList) :
    Dump.isSolid c = true := by
  have all : p.spelling.toList.all Dump.isSolid = true := by cases p <;> decide
  exact List.all_eq_true.1 all c h

theorem Kind.ofWord_ne_string (letters : String) : Kind.ofWord letters ≠ .string := by
  rcases Kind.ofWord_cases letters with ⟨k, word⟩ | word
  · rw [word]
    exact Kind.noConfusion
  · rw [word]
    exact Kind.noConfusion

/-- A token that is found in a well-formed element can be read in a dump. -/
theorem Placed.legible_of_ofPlaced? {q : Placed} {t : Token} (good : q.element.WellFormed)
    (h : Finding.ofPlaced? q = some (.token t)) : t.Legible := by
  obtain ⟨element, start⟩ := q
  cases element with
  | punctuator p =>
      obtain rfl := Finding.token.inj (Option.some.inj h)
      refine .solid Kind.noConfusion ?_ (fun _ value => nomatch value)
      intro c hc
      rw [Placed.token, String.toList_ofList] at hc
      exact p.isSolid_of_mem_spelling hc
  | string body =>
      obtain rfl := Finding.token.inj (Option.some.inj h)
      exact .string body rfl good rfl rfl
  | number whole fraction =>
      obtain rfl := Finding.token.inj (Option.some.inj h)
      refine .solid Kind.noConfusion ?_ ?_
      · intro c hc
        rw [Placed.token, String.toList_ofList] at hc
        exact Dump.isSolid_of_mem_number good hc
      · intro literal value
        obtain rfl := Option.some.inj value
        exact Double.flat_text _
  | word letters =>
      obtain rfl := Finding.token.inj (Option.some.inj h)
      refine .solid (Kind.ofWord_ne_string _) ?_ (fun _ value => nomatch value)
      intro c hc
      rw [Placed.token, String.toList_ofList] at hc
      exact Dump.isSolid_of_mem_word good hc
  | comment body => exact nomatch h
  | blank c => exact nomatch h
  | openString body => exact nomatch h
  | stray c => exact nomatch h

/-- **Tokens of a scan.** They can all be read in a dump. -/
theorem Scan.legible_of_mem_tokens {source : List Char} {t : Token}
    (h : t ∈ (ofList source).tokens) :
    t.Legible := by
  rcases exists_of_mem_tokens h with ⟨q, inside, found⟩ | rfl
  · obtain ⟨before, after, -, between⟩ := Placed.between_of_mem_lay inside
    exact Placed.legible_of_ofPlaced? between.wellFormed found
  · exact .solid Kind.noConfusion (fun _ inside => nomatch inside) (fun _ value => nomatch value)

-- ── What is printed of a source ─────

section Printed

variable {ρ : Type} [Reporter ρ]

/-- What is printed of a source is the lines of its tokens. -/
theorem Script.printed_eq (config : Config) (source : String) (reporter : ρ) :
    printed config source reporter =
      encode ((Scan.ofString source).tokens.flatMap fun t =>
        (t.dumpLine config.showLiterals).toList) := by
  have joined (tokens : List Token) :
      (tokens.flatMap fun t => encode (t.dumpLine config.showLiterals).toList) =
        encode (tokens.flatMap fun t => (t.dumpLine config.showLiterals).toList) := by
    rw [encode, List.flatMap_assoc]
    rfl
  rw [printed, Console.performAll_of_unfailing Console.unfailing_default, Console.toList_out_after,
    output_scanText]
  exact joined _

end Printed

/-- What is printed of a source can be read: it gives the kinds and lexemes of the tokens of the
source back, the end of the input included, whatever is asked about values and whoever is told of
the faults. So sources of which the same is printed have the same kinds and lexemes. -/
structure DumpDecodable (config : Config) : Prop where
  decoded : ∀ {ρ : Type} [Reporter ρ] (reporter : ρ) (source : String),
    Dump.decode? config.showLiterals (Script.printed config source reporter) =
      some ((Scan.ofString source).tokens.map fun t => (t.kind, t.lexeme))
  unique : ∀ {ρ ρ' : Type} [Reporter ρ] [Reporter ρ'] (reporter : ρ) (reporter' : ρ')
    (source other : String),
    Script.printed config source reporter = Script.printed config other reporter' →
      ((Scan.ofString source).tokens.map fun t => (t.kind, t.lexeme)) =
        (Scan.ofString other).tokens.map fun t => (t.kind, t.lexeme)

/-- **Dumps can be read.** There is one way to read a dump, and it gives the tokens back. -/
theorem dump_decodable (config : Config) : DumpDecodable config := by
  have decoded {ρ : Type} [Reporter ρ] (reporter : ρ) (source : String) :
      Dump.decode? config.showLiterals (Script.printed config source reporter) =
        some ((Scan.ofString source).tokens.map fun t => (t.kind, t.lexeme)) := by
    rw [Script.printed_eq, Dump.decode?, decode?_encode, Option.bind_some]
    exact Dump.read_dump config.showLiterals fun t ht => Scan.legible_of_mem_tokens ht
  refine ⟨decoded, ?_⟩
  intro ρ ρ' _ _ reporter reporter' source other printed
  have first := decoded reporter source
  rw [printed, decoded reporter' other] at first
  exact (Option.some.inj first).symm

end LoxScan
