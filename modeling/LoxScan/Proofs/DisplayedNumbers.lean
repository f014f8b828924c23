import LoxScan.Number.Shortest
import LoxScan.Proofs.DumpReading
import LoxScan.Proofs.Literals

/-!
# Displayed numbers

A number is displayed by its shortest numeral, which is written with digits and no more than a point
between them: no sign, since scanned numbers have none, no exponent, and always a digit on either
side of the point. So it can be scanned again. It is one number element, which has the digits of the
numeral and so is read as the same double; and it is short enough for its length to fit into a word,
because a finite double has not many digits before the point and needs not many after it.

* **`text_eq`**, **`ofDigits_eq`**: a numeral is written as a number element that has its digits.
* **`ofList_number`**: the scan of the text of one number element.
* **`length_text_le`**: numerals of finite doubles are short.
* **`displayed_numbers_scan_back`**: a displayed number is scanned as what was displayed.
-/

namespace LoxScan

open Utf8 Element

-- ── Numerals as elements ────────────

namespace Decimal

theorem valueOfDigits_toDigits (n : ℕ) : valueOfDigits (Nat.toDigits 10 n) = n :=
  Nat.ofDigitChars_ten_toDigits

theorem valueOfDigits_padded (n : Decimal) : valueOfDigits n.padded = n.coefficient := by
  have zeros (k : ℕ) : valueOfDigits (List.replicate k '0') = 0 :=
    Nat.ofDigitChars_replicate_zero
  rw [padded, valueOfDigits_append, zeros, valueOfDigits_toDigits, Nat.zero_mul, Nat.zero_add]

/-- The element that a numeral is written as. -/
def element (n : Decimal) : Element :=
  number n.wholeDigits n.fractionDigits

theorem wellFormed_element (n : Decimal) : n.element.WellFormed :=
  ⟨n.wholeDigits_ne_nil, fun _ hd => isDigit_of_mem_padded (List.mem_of_mem_take hd),
    fun _ hd => isDigit_of_mem_padded (List.mem_of_mem_drop hd)⟩

/-- A numeral is written as the text of its element. -/
theorem text_eq (n : Decimal) : n.text = String.ofList n.element.text := by
  have places := n.length_fractionDigits
  rw [text, element]
  cases fraction : n.fractionDigits with
  | nil =>
      rw [fraction, List.length_nil] at places
      rw [if_pos places.symm, Element.text]
  | cons d digits =>
      rw [fraction, List.length_cons] at places
      rw [if_neg (by omega), Element.text]

/-- The digits of its element make the numeral again. -/
theorem ofDigits_eq (n : Decimal) : ofDigits n.wholeDigits n.fractionDigits = n := by
  rw [ofDigits, wholeDigits_append_fractionDigits, valueOfDigits_padded, length_fractionDigits]

-- ── Lengths ─────────────────────────

theorem overflow_le : Double.overflow ≤ (10 ^ 309 : ℕ) := by
  have power : (2 : ℚ) * 2 ^ (1023 : ℤ) = (2 * 2 ^ 1023 : ℕ) := by
    rw [zpow_ofNat, Nat.cast_mul, Nat.cast_pow, Nat.cast_ofNat]
  have digits : 2 * 2 ^ 1023 ≤ 10 ^ 309 := by decide +kernel
  calc Double.overflow ≤ 2 * 2 ^ (1023 : ℤ) :=
        mul_le_mul_of_nonneg_right (by norm_num) (zpow_nonneg two_pos.le _)
    _ = (2 * 2 ^ 1023 : ℕ) := power
    _ ≤ (10 ^ 309 : ℕ) := Nat.cast_le.2 digits

/-- A numeral of a finite double has at most as many digits before the point as the largest has. -/
theorem coefficient_lt {n : Decimal} (finite : n.toDouble.isFinite = true) :
    n.coefficient < 10 ^ (n.places + 309) := by
  have small := n.nearest_toDouble.finite_iff.1 finite
  have less := small.trans_le overflow_le
  rw [value, div_lt_iff₀ (pow_pos (by norm_num) _)] at less
  rw [Nat.pow_add, Nat.mul_comm]
  exact_mod_cast less

/-- Its text is short. -/
theorem length_text_le {n : Decimal} (finite : n.toDouble.isFinite = true) :
    n.element.text.length ≤ n.places + 310 := by
  have digits := (Nat.length_toDigits_le_iff (by decide) (by omega)).2 (coefficient_lt finite)
  have padded : n.padded.length ≤ n.places + 309 := by
    rw [padded, List.length_append, List.length_replicate]
    omega
  have whole := congrArg List.length n.wholeDigits_append_fractionDigits
  rw [List.length_append] at whole
  rw [element]
  cases fraction : n.fractionDigits with
  | nil =>
      rw [Element.text]
      omega
  | cons d digits =>
      rw [fraction] at whole
      rw [Element.text, List.length_append, List.length_cons]
      omega

end Decimal

-- ── Scanning one number ─────────────

/-- The scan of the text of one number element: one token that covers all of it, and the end. -/
theorem Scan.ofList_number {whole fraction : List Char}
    (good : (number whole fraction).WellFormed) :
    (ofList (number whole fraction).text).faults = [] ∧
      (ofList (number whole fraction).text).tokens =
        [⟨.number, String.ofList (number whole fraction).text,
          some (.number (Decimal.ofDigits whole fraction).toDouble), 1,
          Span.ofRange 0 (byteLength (number whole fraction).text)⟩,
          Token.eof 1 (Word.saturate (byteLength (number whole fraction).text))] := by
  have one : tile (number whole fraction).text = [number whole fraction] :=
    tile_eq_iff.2 ⟨by simp, Tiled.cons good (endsBefore_nil _) Tiled.nil⟩
  have flat := newline_not_mem_encode (Sweep.newline_not_mem_number good)
  have line : (Position.origin.advance (number whole fraction).text).line = 1 := by
    rw [Position.line_advance, lineFeeds, List.count_eq_zero_of_not_mem flat]
    rfl
  have offset : (Position.origin.advance (number whole fraction).text).offset =
      byteLength (number whole fraction).text :=
    (Position.offset_advance ..).trans (Nat.zero_add _)
  have found : ofList (number whole fraction).text =
      ⟨[.token (Placed.token ⟨number whole fraction, .origin⟩ .number
        (some (.number (Decimal.ofDigits whole fraction).toDouble)))],
        Position.origin.advance (number whole fraction).text⟩ := by
    rw [ofList, one]
    rfl
  refine ⟨?_, ?_⟩
  · rw [found]
    rfl
  · rw [found, tokens, eof, line, offset, Placed.token, Placed.span, Placed.stop, offset]
    rfl

/-- No character takes more than four bytes. -/
theorem Utf8.byteLength_le (text : List Char) : byteLength text ≤ 4 * text.length := by
  induction text with
  | nil => exact Nat.le_refl 0
  | cons c text ih =>
      have size := c.utf8Size_le_four
      rw [byteLength_cons, List.length_cons]
      omega

/-- A text that is displayed for a double scans back to it: it is a numeral, and scanning it reports
no fault and yields one number token that covers all of it, with this double as its value, and the
end of the input. Displayed again, what it yields has the same text. -/
structure ScansBack (text : String) (d : Double) : Prop where
  spelled : Rule.Spells .number text.toList
  faultless : (Scan.ofString text).diagnostics = []
  tokens : ∃ size : Word, size.toNat = text.utf8ByteSize ∧
    (Scan.ofString text).tokens =
      [⟨.number, text, some (.number d), 1, ⟨0, size⟩⟩,
        ⟨.eof, "", none, 1, ⟨size, size⟩⟩]
  again : ∀ t ∈ (Scan.ofString text).tokens, ∀ literal, t.literal = some literal →
    literal.text = text

/-- What is displayed of a finite double without a sign is the shortest numeral. -/
theorem Double.text_of_finite {d : Double} (sign : d.isNegative = false)
    (finite : d.isFinite = true) :
    d.text = (Decimal.shortest d).text := by
  have small := isFinite_iff.1 finite
  have number : d.isNaN = false := isNaN_eq_false_iff.2 small.le
  have bounded : d.isInfinite = false := beq_eq_false_iff_ne.2 small.ne
  have unsigned : d.abs = d := ofMagnitude_magnitude sign
  rw [Double.text, number, bounded, sign, unsigned]
  rfl

/-- A numeral of which the text is displayed for what it is read as scans back, if it is short. -/
theorem Decimal.scansBack {n : Decimal} (fits : byteLength n.element.text ≤ Word.largest)
    (shown : (Literal.number n.toDouble).text = n.text) : ScansBack n.text n.toDouble := by
  have good := n.wellFormed_element
  have characters : n.text.toList = n.element.text := by
    rw [text_eq, String.toList_ofList]
  obtain ⟨faultless, tokens⟩ := Scan.ofList_number good
  rw [n.ofDigits_eq, ← element, ← n.text_eq, ← characters] at tokens
  rw [← element, ← characters] at faultless
  rw [← characters] at fits
  refine ⟨?_, ?_, ⟨Word.saturate (byteLength n.text.toList), ?_, tokens⟩,
    fun t ht literal value => ?_⟩
  · rw [characters]
    exact good.spells Rule.noConfusion
  · rw [Scan.diagnostics, Scan.ofString, faultless]
    rfl
  · rw [Word.toNat_saturate_of_le fits, byteLength_toList]
  · rw [Scan.ofString, tokens] at ht
    rcases List.mem_cons.1 ht with rfl | ht
    · obtain rfl := Option.some.inj value
      exact shown
    · obtain rfl := List.mem_singleton.1 ht
      exact nomatch value

/-- **Reading back.** Any finite double without a sign is scanned as what it was displayed from. -/
theorem scansBack_of_finite {d : Double} (sign : d.isNegative = false)
    (finite : d.isFinite = true) :
    ScansBack (Literal.number d).text d := by
  have shown : (Literal.number d).text = (Decimal.shortest d).text :=
    Double.text_of_finite sign finite
  have readBack := Decimal.toDouble_shortest sign finite
  have places := Decimal.places_shortest_le sign finite
  generalize Decimal.shortest d = n at *
  subst readBack
  have fits : byteLength n.element.text ≤ Word.largest := by
    have bytes := Utf8.byteLength_le n.element.text
    have short := Decimal.length_text_le finite
    rw [Decimal.finestPlaces] at places
    rw [Word.largest]
    omega
  rw [shown]
  exact Decimal.scansBack fits shown

/-- **Displayed numbers scan back.** -/
theorem displayed_numbers_scan_back {source : String} {t : Token} {d : Double}
    (h : t ∈ (Scan.ofString source).tokens) (number : t.literal = some (.number d))
    (finite : d.isFinite = true) : ScansBack (Literal.number d).text d :=
  scansBack_of_finite ((Scan.decoded_of_mem_tokens h).nearest number).sign finite

/-- Zeros at the end of a numeral are not displayed again. -/
theorem displayed_numbers_scan_back_trimmed :
    (⟨.number, "1.50", some (.number ⟨0x3FF8000000000000⟩), 1, ⟨2, 6⟩⟩ : Token) ∈
        (Scan.ofString "7 1.50").tokens ∧
      (⟨0x3FF8000000000000⟩ : Double).isFinite = true ∧
      (Literal.number ⟨0x3FF8000000000000⟩).text = "1.5" ∧
      ScansBack (Literal.number ⟨0x3FF8000000000000⟩).text ⟨0x3FF8000000000000⟩ := by
  have found :
    (⟨.number, "1.50", some (.number ⟨0x3FF8000000000000⟩), 1, ⟨2, 6⟩⟩ : Token) ∈
      (Scan.ofString "7 1.50").tokens := by decide +kernel
  exact ⟨found, by decide, by decide +kernel, displayed_numbers_scan_back found rfl (by decide)⟩

end LoxScan
