import LoxScan.Text.Utf8
import Mathlib.Tactic.IntervalCases

/-!
# Text that is encoded can be read back

An encoded character begins with a lead byte that announces as many continuation bytes as follow,
each of which holds six bits. So reading takes off the front of encoded text just the bytes of the
first character, and puts its bits together again. The only care is for the ranges of the first
continuation byte: they are those of the shortest encodings of characters, and shortest encodings
are what encoding writes.

* **`next_utf8EncodeChar`**: reading takes one encoded character off the front of a text.
* **`decode?_encode`**: so every text is read back from its encoding.
-/

namespace LoxScan.Utf8

-- ── Single bytes ────────────────────

/-- A continuation byte in range adds its six bits. -/
theorem continue?_bits {n value bits : Nat} {least greatest : UInt8} {rest : List UInt8}
    (small : bits < 64) (low : least.toNat ≤ bits + 128) (high : bits + 128 ≤ greatest.toNat) :
    continue? (n + 1) least greatest value (UInt8.ofNat (bits + 128) :: rest) =
      continue? n 0x80 0xBF (value * 64 + bits) rest := by
  have byte : (UInt8.ofNat (bits + 128)).toNat = bits + 128 := by
    rw [UInt8.toNat_ofNat']
    omega
  have within : least ≤ UInt8.ofNat (bits + 128) ∧ UInt8.ofNat (bits + 128) ≤ greatest := by
    rw [UInt8.le_iff_toNat_le, UInt8.le_iff_toNat_le, byte]
    exact ⟨low, high⟩
  rw [continue?, if_pos within, byte, show (bits + 128) % 64 = bits by omega]

/-- A continuation byte that is not the first one has the full range. -/
theorem continue?_full {n value bits : Nat} {rest : List UInt8} (small : bits < 64) :
    continue? (n + 1) 0x80 0xBF value (UInt8.ofNat (bits + 128) :: rest) =
      continue? n 0x80 0xBF (value * 64 + bits) rest := by
  have most : (0xBF : UInt8).toNat = 191 := rfl
  exact continue?_bits small (Nat.le_add_left 128 bits) (by omega)

theorem lead?_one {n : Nat} (small : n < 128) :
    lead? (UInt8.ofNat n) = some ⟨0, 0x80, 0xBF, n⟩ := by
  have byte : (UInt8.ofNat n).toNat = n := by
    rw [UInt8.toNat_ofNat']
    omega
  have ascii : UInt8.ofNat n < 0x80 := by
    rw [UInt8.lt_iff_toNat_lt, byte]
    exact small
  rw [lead?, if_pos ascii, byte]

theorem lead?_two {bits : Nat} (wide : 2 ≤ bits) (small : bits < 32) :
    lead? (UInt8.ofNat (bits + 192)) = some ⟨1, 0x80, 0xBF, bits⟩ := by
  interval_cases bits <;> rfl

/-- The lead byte of three. The range of the byte after it keeps out what two bytes hold and the
surrogates. -/
theorem lead?_three {bits : Nat} (small : bits < 16) :
    ∃ least greatest, lead? (UInt8.ofNat (bits + 224)) = some ⟨2, least, greatest, bits⟩ ∧
      least.toNat = (if bits = 0 then 160 else 128) ∧
      greatest.toNat = if bits = 13 then 159 else 191 := by
  interval_cases bits <;> exact ⟨_, _, rfl, rfl, rfl⟩

/-- The lead byte of four. The range of the byte after it keeps out what three bytes hold and what
is beyond the last character. -/
theorem lead?_four {bits : Nat} (small : bits < 5) :
    ∃ least greatest, lead? (UInt8.ofNat (bits + 240)) = some ⟨3, least, greatest, bits⟩ ∧
      least.toNat = (if bits = 0 then 144 else 128) ∧
      greatest.toNat = if bits = 4 then 143 else 191 := by
  interval_cases bits <;> exact ⟨_, _, rfl, rfl, rfl⟩

-- ── Characters and texts ────────────

/-- A lead byte and the bytes that it announces make a character. -/
theorem next_of_continue? {b : UInt8} {n value : Nat} {least greatest : UInt8} {c : Char}
    {bytes rest : List UInt8} (code : Nat) (lead : lead? b = some ⟨n, least, greatest, value⟩)
    (read : continue? n least greatest value bytes = (some code, rest)) (coded : code = c.toNat) :
    next b bytes = (some c, rest) := by
  rw [next, lead]
  show ((continue? n least greatest value bytes).1.map Char.ofNat, _) = _
  rw [read, coded, Option.map_some, Char.ofNat_toNat]

/-- **One character.** Reading takes an encoded character off the front of a text. -/
theorem next_utf8EncodeChar (c : Char) (rest : List UInt8) :
    ∃ b tail, String.utf8EncodeChar c = b :: tail ∧ next b (tail ++ rest) = (some c, rest) := by
  have value : c.toNat = c.val.toNat := rfl
  have valid : c.toNat < 55296 ∨ 57343 < c.toNat ∧ c.toNat < 1114112 := c.valid
  rw [String.utf8EncodeChar]
  split
  case isTrue one =>
    refine ⟨_, _, rfl, next_of_continue? c.val.toNat (lead?_one (by omega)) ?_ value.symm⟩
    rw [List.nil_append, continue?]
  case isFalse more =>
    split
    case isTrue two =>
      refine ⟨_, _, rfl, next_of_continue? (c.val.toNat / 64 % 32 * 64 + c.val.toNat % 64)
        (lead?_two (by omega) (by omega)) ?_ ?_⟩
      · rw [List.cons_append, continue?_full (by omega), List.nil_append, continue?]
      · omega
    case isFalse more =>
      split
      case isTrue three =>
        have bits : c.val.toNat / 4096 % 16 < 16 := by omega
        obtain ⟨least, greatest, lead, low, high⟩ := lead?_three bits
        have within : least.toNat ≤ c.val.toNat / 64 % 64 + 128 ∧
            c.val.toNat / 64 % 64 + 128 ≤ greatest.toNat := by
          rw [low, high]
          constructor
          · split <;> omega
          · split <;> omega
        refine ⟨_, _, rfl, next_of_continue?
          ((c.val.toNat / 4096 % 16 * 64 + c.val.toNat / 64 % 64) * 64 +
            c.val.toNat % 64) lead ?_ ?_⟩
        · rw [List.cons_append, continue?_bits (by omega) within.1 within.2, List.cons_append,
            continue?_full (by omega), List.nil_append, continue?]
        · omega
      case isFalse four =>
        have bits : c.val.toNat / 262144 % 8 < 5 := by omega
        obtain ⟨least, greatest, lead, low, high⟩ := lead?_four bits
        have within : least.toNat ≤ c.val.toNat / 4096 % 64 + 128 ∧
            c.val.toNat / 4096 % 64 + 128 ≤ greatest.toNat := by
          rw [low, high]
          constructor
          · split <;> omega
          · split <;> omega
        refine ⟨_, _, rfl, next_of_continue? (((c.val.toNat / 262144 % 8 * 64 +
          c.val.toNat / 4096 % 64) * 64 + c.val.toNat / 64 % 64) * 64 +
            c.val.toNat % 64) lead ?_ ?_⟩
        · rw [List.cons_append, continue?_bits (by omega) within.1 within.2, List.cons_append,
            continue?_full (by omega), List.cons_append, continue?_full (by omega), List.nil_append,
            continue?]
        · omega

/-- The pieces of a text that begins with encoded characters begin with these characters. -/
theorem pieces_encode_append (text : List Char) (rest : List UInt8) :
    pieces (encode text ++ rest) = text.map some ++ pieces rest := by
  induction text with
  | nil => rfl
  | cons c text ih =>
      obtain ⟨b, tail, bytes, read⟩ := next_utf8EncodeChar c (encode text ++ rest)
      rw [encode_cons, bytes, List.append_assoc, List.cons_append, pieces_cons, read, ih]
      rfl

/-- **Reading back.** A text is read back from its encoding. -/
theorem decode?_encode (text : List Char) : decode? (encode text) = some text := by
  have read : pieces (encode text) = text.map some := by
    have whole := pieces_encode_append text []
    rwa [List.append_nil, pieces_nil, List.append_nil] at whole
  have all : (pieces (encode text)).all Option.isSome = true := by
    rw [read, List.all_map]
    exact List.all_eq_true.2 fun c _ => rfl
  rw [decode?, if_pos all, decodeLossy, read, List.map_map]
  exact congrArg some (List.map_id text)

end LoxScan.Utf8
