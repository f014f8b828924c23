/-!
# Bytes and characters

Text leaves and enters a program as bytes in UTF-8. Encoding is character by character. Decoding
takes one character at a time as well: a lead byte says how many continuation bytes belong to it and
in which range the first of them must lie, so that no character has two encodings and no surrogate
has one. Where the bytes stop being the beginning of a character, the bytes read so far, at least
the first one, are one malformed piece, and decoding goes on with the byte that did not fit.

There are two ways to go on from a malformed piece. `Utf8.decode?` refuses the whole text;
`Utf8.decodeLossy` puts one replacement character in its place, and so loses the piece but nothing
else.

* **`decodeLossy_of_decode?`**: the two agree on every text that is not refused.
* **`length_encode`**: a character takes as many bytes as its size says.
* **`length_next_le`**: a piece leaves no more than it was given, so decoding ends.
-/

namespace LoxScan.Utf8

-- ── Encoding ────────────────────────

/-- The bytes of a row of characters. -/
def encode (text : List Char) : List UInt8 :=
  text.flatMap String.utf8EncodeChar

@[simp] theorem encode_nil : encode [] = [] :=
  rfl

@[simp] theorem encode_cons (c : Char) (text : List Char) :
    encode (c :: text) = String.utf8EncodeChar c ++ encode text :=
  rfl

@[simp] theorem encode_append (a b : List Char) : encode (a ++ b) = encode a ++ encode b :=
  List.flatMap_append

/-- The length of a row of characters in bytes. -/
def byteLength : List Char → Nat
  | [] => 0
  | c :: rest => c.utf8Size + byteLength rest

@[simp] theorem byteLength_nil : byteLength [] = 0 :=
  rfl

@[simp] theorem byteLength_cons (c : Char) (text : List Char) :
    byteLength (c :: text) = c.utf8Size + byteLength text :=
  rfl

@[simp] theorem byteLength_append (a b : List Char) :
    byteLength (a ++ b) = byteLength a + byteLength b := by
  induction a with
  | nil => simp
  | cons c a ih => simp [ih, Nat.add_assoc]

@[simp] theorem length_encode (text : List Char) : (encode text).length = byteLength text := by
  induction text with
  | nil => rfl
  | cons c text ih => simp [ih]

theorem byteLength_toList (s : String) : byteLength s.toList = s.utf8ByteSize := by
  have bytes : (encode s.toList).toByteArray = s.toByteArray := String.utf8Encode_toList
  rw [← length_encode, ← List.size_toByteArray, bytes]
  rfl

-- ── Decoding one piece ──────────────

/-- What a lead byte announces: the number of continuation bytes, the range of the first of them,
and the bits that the lead byte itself holds. -/
structure Lead where
  continuations : Nat
  least : UInt8
  greatest : UInt8
  value : Nat

/-- The announcement of a lead byte. Bytes that can begin no character are no lead bytes. -/
def lead? (b : UInt8) : Option Lead :=
  let bits := b.toNat
  if b < 0x80 then some ⟨0, 0x80, 0xBF, bits⟩
  else if b < 0xC2 then none
  else if b < 0xE0 then some ⟨1, 0x80, 0xBF, bits % 32⟩
  else if b = 0xE0 then some ⟨2, 0xA0, 0xBF, bits % 16⟩
  else if b = 0xED then some ⟨2, 0x80, 0x9F, bits % 16⟩
  else if b < 0xF0 then some ⟨2, 0x80, 0xBF, bits % 16⟩
  else if b = 0xF0 then some ⟨3, 0x90, 0xBF, bits % 8⟩
  else if b < 0xF4 then some ⟨3, 0x80, 0xBF, bits % 8⟩
  else if b = 0xF4 then some ⟨3, 0x80, 0x8F, bits % 8⟩
  else none

/-- Reads the announced continuation bytes. The first must lie in the given range, the others in the
full one. Gives the code point, or nothing at the first byte that does not fit, and what is left. -/
def continue? : Nat → UInt8 → UInt8 → Nat → List UInt8 → Option Nat × List UInt8
  | 0, _, _, value, bytes => (some value, bytes)
  | _ + 1, _, _, _, [] => (none, [])
  | n + 1, least, greatest, value, b :: rest =>
    if least ≤ b ∧ b ≤ greatest then continue? n 0x80 0xBF (value * 64 + b.toNat % 64) rest
    else (none, b :: rest)

/-- The piece at the head of a non-empty text, a character or nothing if it is malformed, and what
is left of the text. -/
def next (b : UInt8) (rest : List UInt8) : Option Char × List UInt8 :=
  match lead? b with
  | none => (none, rest)
  | some lead =>
    let read := continue? lead.continuations lead.least lead.greatest lead.value rest
    (read.1.map Char.ofNat, read.2)

theorem length_continue?_le (n : Nat) (least greatest : UInt8) (value : Nat) (bytes : List UInt8) :
    (continue? n least greatest value bytes).2.length ≤ bytes.length := by
  fun_induction continue? n least greatest value bytes with
  | case1 => exact Nat.le_refl _
  | case2 => exact Nat.le_refl _
  | case3 n least greatest value b rest _ ih => exact Nat.le_succ_of_le ih
  | case4 => exact Nat.le_refl _

theorem length_next_le (b : UInt8) (rest : List UInt8) :
    (next b rest).2.length ≤ rest.length := by
  rw [next]
  split
  case h_1 => exact Nat.le_refl _
  case h_2 lead _ => exact length_continue?_le ..

-- ── Decoding a text ─────────────────

/-- The pieces of a text in order: characters, and nothing for each malformed piece. -/
def pieces : List UInt8 → List (Option Char)
  | [] => []
  | b :: rest =>
    let read := next b rest
    read.1 :: pieces read.2
termination_by bytes => bytes.length
decreasing_by exact Nat.lt_succ_of_le (length_next_le b rest)

/-- What stands for a malformed piece. -/
def replacement : Char :=
  '\uFFFD'

/-- The characters of a text, with one replacement character for each malformed piece. -/
def decodeLossy (bytes : List UInt8) : List Char :=
  (pieces bytes).map (·.getD replacement)

/-- The characters of a text, if no piece of it is malformed. -/
def decode? (bytes : List UInt8) : Option (List Char) :=
  if (pieces bytes).all Option.isSome then some (decodeLossy bytes) else none

@[simp] theorem pieces_nil : pieces [] = [] := by
  rw [pieces]

theorem pieces_cons (b : UInt8) (rest : List UInt8) :
    pieces (b :: rest) = (next b rest).1 :: pieces (next b rest).2 := by
  rw [pieces]

@[simp] theorem decodeLossy_nil : decodeLossy [] = [] := by
  simp [decodeLossy]

@[simp] theorem decode?_nil : decode? [] = some [] := by
  simp [decode?]

/-- Where nothing is malformed, nothing is lost. -/
theorem decodeLossy_of_decode? {bytes : List UInt8} {text : List Char}
    (h : decode? bytes = some text) :
    decodeLossy bytes = text := by
  rw [decode?] at h
  split at h
  case isTrue => exact Option.some.inj h
  case isFalse => exact nomatch h

end LoxScan.Utf8
