import LoxScan.Number.Numeral
import LoxScan.Proofs.Grammar
import LoxScan.Proofs.Placement
import LoxScan.Proofs.SweepTurn

/-!
# What literals are worth

The value of a token is read off its lexeme. That of a string is the lexeme without its first and
last byte, which are the quotes, so there is none left in it. That of a number is the double nearest
to what the numeral denotes, exactly, however many digits it has; and since there is only one such
double, any correctly rounded reader gives the same one, and none is ever at a loss. So numerals
that denote the same number have the same bits, and a larger one never has a smaller double.

* **`value_number`**: what a number element denotes is what its digits say.
* **`decoded_of_mem_tokens`**: every token of a scan has the value that its lexeme says.
* **`literals_exact`**: so literals compare as their numerals do.
-/

namespace LoxScan

open Utf8 Element

-- ── Numerals ────────────────────────

/-- The text of a number element denotes what its digits say. -/
theorem Numeral.value_number {whole fraction : List Char}
    (good : (number whole fraction).WellFormed) :
    value (number whole fraction).text = (Decimal.ofDigits whole fraction).value := by
  obtain ⟨-, wholeDigits, -⟩ := good
  have inside : ∀ c ∈ whole, decide (c ≠ '.') = true := by
    intro c hc
    refine decide_eq_true ?_
    rintro rfl
    exact absurd (wholeDigits '.' hc) (by decide)
  rw [← whole_add_fraction, value]
  cases fraction with
  | nil =>
      have taken := takeWhile_append_of_avoids inside (avoids_nil (· ≠ '.'))
      have left := dropWhile_append_of_avoids inside (avoids_nil (· ≠ '.'))
      rw [List.append_nil] at taken left
      rw [text, taken, left]
      rfl
  | cons d fraction =>
      have stop : Avoids (· ≠ '.') ('.' :: d :: fraction) := avoids_cons (by decide)
      rw [text, takeWhile_append_of_avoids inside stop, dropWhile_append_of_avoids inside stop]
      rfl

/-- A reader of numbers is correctly rounded if it reads every numeral, as the double nearest to
what the numeral denotes. -/
def CorrectlyRounded (read : List Char → Option Double) : Prop :=
  ∀ numeral, Rule.Spells .number numeral →
    ∃ d, read numeral = some d ∧ Double.Nearest (Numeral.value numeral) d

/-- A number element is read as the double nearest to what its text denotes. -/
theorem nearest_number {whole fraction : List Char} (good : (number whole fraction).WellFormed) :
    Double.Nearest (Numeral.value (number whole fraction).text)
      (Decimal.ofDigits whole fraction).toDouble := by
  rw [Numeral.value_number good]
  exact Decimal.nearest_toDouble _

/-- The values of numerals are read in a correctly rounded way. -/
theorem correctlyRounded_valueOf :
    CorrectlyRounded fun numeral => (Sweep.valueOf numeral).number? := by
  intro numeral spelled
  obtain ⟨e, rule, rfl, good, -⟩ := exists_of_spells spelled
  cases e with
  | number whole fraction =>
      refine ⟨(Decimal.ofDigits whole fraction).toDouble, ?_, nearest_number good⟩
      show (Sweep.valueOf _).number? = _
      rw [Sweep.valueOf_text good]
      rfl
  | _ => exact nomatch rule

/-- Halfway between two doubles, the even one is taken. -/
example : (Sweep.valueOf "9007199254740993".toList).number? = some ⟨0x4340000000000000⟩ := by
  decide +kernel

-- ── One token ───────────────────────

/-- A token has the value that its lexeme says: a string what is between the quotes, a number the
double that every correctly rounded reader gives, and any other token none. -/
structure Token.Decoded (t : Token) : Prop where
  string : t.kind = .string → ∃ body, t.literal = some (.string body) ∧
    encode body.toList = (encode t.lexeme.toList).tail.dropLast ∧ '"' ∉ body.toList
  number : t.kind = .number → Rule.Spells .number t.lexeme.toList ∧
    ∃ d, t.literal = some (.number d) ∧
      Double.Nearest (Numeral.value t.lexeme.toList) d ∧ d.isNaN = false ∧
      ∀ read, CorrectlyRounded read → read t.lexeme.toList = some d
  other : t.kind ≠ .string → t.kind ≠ .number → t.literal = none

/-- A token without a value is as it should be if its kind carries none. -/
theorem Token.decoded_of_none {t : Token} (plain : t.kind.Carries none)
    (valueless : t.literal = none) : t.Decoded := by
  refine ⟨fun string => ?_, fun number => ?_, fun _ _ => valueless⟩
  · rw [string] at plain
    exact nomatch plain
  · rw [number] at plain
    exact nomatch plain

/-- What is found in a well-formed element has the value that its lexeme says. -/
theorem Placed.decoded_of_ofPlaced? {q : Placed} {t : Token} (good : q.element.WellFormed)
    (h : Finding.ofPlaced? q = some (.token t)) : t.Decoded := by
  obtain ⟨element, start⟩ := q
  cases element with
  | punctuator p =>
      obtain rfl := Finding.token.inj (Option.some.inj h)
      exact Token.decoded_of_none rfl rfl
  | string body =>
      obtain rfl := Finding.token.inj (Option.some.inj h)
      refine ⟨fun _ => ⟨String.ofList body, rfl, ?_, ?_⟩, Kind.noConfusion,
        fun string => absurd rfl string⟩
      · have quote : String.utf8EncodeChar '"' = [34] := by decide
        rw [Placed.token, String.toList_ofList, String.toList_ofList, text, encode_append,
          encode_cons, encode_cons, encode_nil, quote, List.append_nil, List.cons_append,
          List.nil_append, List.cons_append, List.tail_cons, List.dropLast_concat]
      · rw [String.toList_ofList]
        exact good
  | number whole fraction =>
      obtain rfl := Finding.token.inj (Option.some.inj h)
      have spelled := good.spells Rule.noConfusion
      have near := nearest_number good
      refine ⟨Kind.noConfusion, fun _ => ?_, fun _ number => absurd rfl number⟩
      rw [Placed.token, String.toList_ofList]
      refine ⟨spelled, _, rfl, near, near.isNaN_eq_false, fun read rounded => ?_⟩
      obtain ⟨d, found, near'⟩ := rounded _ spelled
      rw [found, near'.unique near]
  | word letters =>
      obtain rfl := Finding.token.inj (Option.some.inj h)
      exact Token.decoded_of_none (Kind.carries_ofWord _) rfl
  | comment body => cases h
  | blank c => cases h
  | openString body => cases h
  | stray c => cases h

/-- **Tokens of a scan.** Each has the value that its lexeme says. -/
theorem Scan.decoded_of_mem_tokens {source : List Char} {t : Token}
    (h : t ∈ (ofList source).tokens) :
    t.Decoded := by
  rcases exists_of_mem_tokens h with ⟨q, inside, found⟩ | rfl
  · obtain ⟨before, after, -, between⟩ := Placed.between_of_mem_lay inside
    exact Placed.decoded_of_ofPlaced? between.wellFormed found
  · exact Token.decoded_of_none rfl rfl

/-- The number of a token is the double nearest to what its lexeme denotes. -/
theorem Token.Decoded.nearest {t : Token} (h : t.Decoded) {d : Double}
    (value : t.literal = some (.number d)) :
    Double.Nearest (Numeral.value t.lexeme.toList) d := by
  by_cases number : t.kind = .number
  · obtain ⟨-, e, value', near, -⟩ := h.number number
    obtain rfl := Literal.number.inj (Option.some.inj (value.symm.trans value'))
    exact near
  · by_cases string : t.kind = .string
    · obtain ⟨body, value', -⟩ := h.string string
      exact nomatch value.symm.trans value'
    · exact nomatch value.symm.trans (h.other string number)

-- ── All tokens ──────────────────────

/-- Every token of every source has the value that its lexeme says. Numbers of which the lexemes
denote the same have the same bits, be they of one source or of two, and if one denotes less, its
double is not the larger. -/
structure LiteralsExact : Prop where
  decoded : ∀ (source : String), ∀ t ∈ (Scan.ofString source).tokens, t.Decoded
  same : ∀ (source source' : String), ∀ t ∈ (Scan.ofString source).tokens,
    ∀ t' ∈ (Scan.ofString source').tokens, ∀ d d', t.literal = some (.number d) →
      t'.literal = some (.number d') →
        Numeral.value t.lexeme.toList = Numeral.value t'.lexeme.toList → d = d'
  order : ∀ (source source' : String), ∀ t ∈ (Scan.ofString source).tokens,
    ∀ t' ∈ (Scan.ofString source').tokens, ∀ d d', t.literal = some (.number d) →
      t'.literal = some (.number d') →
        Numeral.value t.lexeme.toList < Numeral.value t'.lexeme.toList →
        d.magnitude ≤ d'.magnitude ∧
          (d'.isFinite = true → d.isFinite = true ∧ d.value ≤ d'.value)

/-- **Literals are exact.** -/
theorem literals_exact : LiteralsExact := by
  have decoded (source : String) {t : Token} (ht : t ∈ (Scan.ofString source).tokens) :
    t.Decoded :=
    Scan.decoded_of_mem_tokens ht
  refine ⟨fun source t ht => decoded source ht, ?_, ?_⟩
  · intro source source' t ht t' ht' d d' value value' denoted
    have near := (decoded source ht).nearest value
    rw [denoted] at near
    exact near.unique ((decoded source' ht').nearest value')
  · intro source source' t ht t' ht' d d' value value' less
    have near := (decoded source ht).nearest value
    have near' := (decoded source' ht').nearest value'
    exact ⟨near.magnitude_le near' less.le, near.value_le near' less.le⟩

end LoxScan
