import LoxScan.Proofs.Boundary
import LoxScan.Proofs.Positions
import LoxScan.Scan.Sweep

/-!
# Classes of bytes and of characters

A sweep sees bytes where reading sees characters. What lets it get by with bytes is the encoding: a
byte below 128 is a whole character, every other character is made of bytes from 128 on, and the
bytes of a character after its first are told by their upper two bits. So a class of bytes can stand
for a class of characters (`Mirrors`): all bytes of a character are in the one exactly if the
character is in the other.

A cursor between two texts (`Cursor.between`) then moves over characters of a class when it is told
to move over bytes of the class that stands for it, and what it reads next is in the one exactly if
the next character is in the other.

* **`mirrors_of_ascii`**: a class of ASCII characters has such a class of bytes, and so has the
  class of all characters but one of them (`mirrors_ne`).
* **`eatWhile_between`**: moving over bytes of a class is moving over characters.
* **`exists_lead`**: every character has one byte that is no continuation, its first.
-/

namespace LoxScan

namespace Utf8

-- ── The encoding of one character ───

theorem utf8EncodeChar_of_lt {c : Char} (h : c.toNat < 128) :
    String.utf8EncodeChar c = [UInt8.ofNat c.toNat] := by
  have value : c.toNat = c.val.toNat := rfl
  rw [String.utf8EncodeChar, if_pos (by omega)]
  rfl

/-- No byte of a longer encoding is an ASCII character. -/
theorem le_toNat_of_mem_utf8EncodeChar {c : Char} (h : 128 ≤ c.toNat) {b : UInt8}
    (hb : b ∈ String.utf8EncodeChar c) : 128 ≤ b.toNat := by
  by_contra small
  have value := toNat_eq_of_mem_utf8EncodeChar hb (by omega)
  omega

theorem isContinuation_iff (b : UInt8) :
    Byte.isContinuation b = true ↔ 128 ≤ b.toNat ∧ b.toNat < 192 := by
  have every : ∀ n < 256, Byte.isContinuation (UInt8.ofNat n) = true ↔
      128 ≤ n ∧ n < 192 := by
    decide +kernel
  have this := every b.toNat b.toNat_lt
  rwa [UInt8.ofNat_toNat] at this

/-- A character has a first byte, which is no continuation, and all its other bytes are. -/
theorem exists_lead (c : Char) : ∃ b tail, String.utf8EncodeChar c = b :: tail ∧
    Byte.isContinuation b = false ∧ ∀ t ∈ tail, Byte.isContinuation t = true := by
  simp only [Bool.eq_false_iff, ne_eq, isContinuation_iff]
  have valid := c.val.toNat_lt
  rw [String.utf8EncodeChar]
  split
  case isTrue =>
    refine ⟨_, _, rfl, ?_, fun _ ht => nomatch ht⟩
    rw [UInt8.toNat_ofNat']
    omega
  case isFalse =>
    split
    case isTrue =>
      refine ⟨_, _, rfl, ?_, ?_⟩
      · rw [UInt8.toNat_ofNat']
        omega
      · intro t ht
        obtain rfl := List.mem_singleton.1 ht
        rw [UInt8.toNat_ofNat']
        omega
    case isFalse =>
      split
      case isTrue =>
        refine ⟨_, _, rfl, ?_, ?_⟩
        · rw [UInt8.toNat_ofNat']
          omega
        · intro t ht
          simp only [List.mem_cons, List.not_mem_nil, or_false] at ht
          rcases ht with rfl | rfl <;> rw [UInt8.toNat_ofNat'] <;> omega
      case isFalse =>
        refine ⟨_, _, rfl, ?_, ?_⟩
        · rw [UInt8.toNat_ofNat']
          omega
        · intro t ht
          simp only [List.mem_cons, List.not_mem_nil, or_false] at ht
          rcases ht with rfl | rfl | rfl <;> rw [UInt8.toNat_ofNat'] <;> omega

-- ── Classes that stand for each other ──

/-- A class of bytes stands for a class of characters: the bytes of a character are in the one
exactly if the character is in the other. -/
def Mirrors (p : UInt8 → Bool) (q : Char → Bool) : Prop :=
  ∀ c, ∀ b ∈ String.utf8EncodeChar c, p b = q c

/-- A class of ASCII bytes stands for the ASCII characters with their numbers. -/
theorem mirrors_of_ascii {p : UInt8 → Bool} {q : Char → Bool}
    (ascii : ∀ n < 128, p (UInt8.ofNat n) = q (Char.ofNat n))
    (bytes : ∀ b : UInt8, 128 ≤ b.toNat → p b = false)
    (chars : ∀ c : Char, q c = true → c.toNat < 128) : Mirrors p q := by
  intro c b hb
  by_cases small : c.toNat < 128
  · rw [utf8EncodeChar_of_lt small] at hb
    obtain rfl := List.mem_singleton.1 hb
    rw [ascii c.toNat small, Char.ofNat_toNat]
  · have out : q c = false := Bool.eq_false_iff.2 fun inside => small (chars c inside)
    rw [bytes b (le_toNat_of_mem_utf8EncodeChar (Nat.not_lt.1 small) hb), out]

theorem Mirrors.or {p p' : UInt8 → Bool} {q q' : Char → Bool} (h : Mirrors p q)
    (h' : Mirrors p' q') :
    Mirrors (fun b => p b || p' b) (fun c => q c || q' c) := by
  intro c b hb
  show (p b || p' b) = (q c || q' c)
  rw [h c b hb, h' c b hb]

theorem lt_of_isDigit {c : Char} (h : c.isDigit = true) : c.toNat < 128 := by
  rw [Char.isDigit, Bool.and_eq_true] at h
  have low : c.toNat ≤ 57 := of_decide_eq_true h.2
  omega

theorem lt_of_isWordStart {c : Char} (h : isWordStart c = true) : c.toNat < 128 := by
  rcases Element.isWordStart_iff.1 h with ⟨-, low⟩ | ⟨-, low⟩ | rfl
  · have small : c.toNat ≤ 90 := low
    omega
  · have small : c.toNat ≤ 122 := low
    omega
  · decide

theorem mirrors_isDigit : Mirrors Byte.isDigit Char.isDigit := by
  refine mirrors_of_ascii (by decide) ?_ fun c hc => lt_of_isDigit hc
  intro b hb
  have high : ¬ b ≤ 57 := fun (low : b.toNat ≤ 57) => by omega
  rw [Byte.isDigit, decide_eq_false high, Bool.and_false]

theorem mirrors_isWordStart : Mirrors Byte.isWordStart isWordStart := by
  refine mirrors_of_ascii (by decide) ?_ fun c hc => lt_of_isWordStart hc
  intro b hb
  have lower : ¬ b ≤ 122 := fun (low : b.toNat ≤ 122) => by omega
  have upper : ¬ b ≤ 90 := fun (low : b.toNat ≤ 90) => by omega
  have other : b ≠ 95 := by
    rintro rfl
    exact absurd hb (by decide)
  rw [Byte.isWordStart, decide_eq_false lower, decide_eq_false upper, beq_false_of_ne other,
    Bool.and_false, Bool.and_false]
  rfl

theorem mirrors_isWordRest : Mirrors Byte.isWordRest isWordRest := by
  intro c b hb
  have parts := mirrors_isWordStart.or mirrors_isDigit c b hb
  show (Byte.isWordStart b || Byte.isDigit b) = (c.isAlpha || c.isDigit || c == '_')
  rw [Bool.or_right_comm]
  exact parts

/-- A byte of a character is an ASCII character exactly if the whole character is. -/
theorem eq_ofNat_iff_of_mem {c a : Char} (ascii : a.toNat < 128) {b : UInt8}
    (hb : b ∈ String.utf8EncodeChar c) : b = UInt8.ofNat a.toNat ↔ c = a := by
  have value : (UInt8.ofNat a.toNat).toNat = a.toNat := by
    rw [UInt8.toNat_ofNat']
    omega
  constructor
  · rintro rfl
    have byte := toNat_eq_of_mem_utf8EncodeChar hb (by omega)
    exact Char.toNat_inj.1 (byte.trans value)
  · rintro rfl
    rw [utf8EncodeChar_of_lt ascii] at hb
    exact List.mem_singleton.1 hb

theorem mirrors_beq {a : Char} (ascii : a.toNat < 128) :
    Mirrors (· == UInt8.ofNat a.toNat) (· == a) := by
  intro c b hb
  show (b == UInt8.ofNat a.toNat) = (c == a)
  rw [Bool.eq_iff_iff, beq_iff_eq, beq_iff_eq, eq_ofNat_iff_of_mem ascii hb]

theorem mirrors_ne {a : Char} (ascii : a.toNat < 128) :
    Mirrors (fun b => decide (b ≠ UInt8.ofNat a.toNat)) (fun c => decide (c ≠ a)) := by
  intro c b hb
  show decide (b ≠ UInt8.ofNat a.toNat) = decide (c ≠ a)
  rw [decide_eq_decide, ne_eq, ne_eq, eq_ofNat_iff_of_mem ascii hb]

-- ── Runs of a class ─────────────────

section Runs

variable {p : UInt8 → Bool} {q : Char → Bool} {inside after : List Char}

/-- The bytes in front that are in a class are those of the characters in front that are. -/
theorem Mirrors.takeWhile_encode (h : Mirrors p q) (all : ∀ c ∈ inside, q c = true)
    (stop : Element.Avoids q after) : (encode (inside ++ after)).takeWhile p = encode inside := by
  have taken : ∀ b ∈ encode inside, p b = true := by
    intro b hb
    obtain ⟨c, hc, hb⟩ := List.mem_flatMap.1 hb
    rw [h c b hb, all c hc]
  rw [encode_append, List.takeWhile_append_of_pos taken]
  cases after with
  | nil => rw [encode_nil, List.takeWhile_nil, List.append_nil]
  | cons c after =>
      obtain ⟨b, tail, lead, -, -⟩ := exists_lead c
      have out : p b = false := by rw [h c b (lead ▸ List.mem_cons_self), stop c rfl]
      rw [encode_cons, lead, List.cons_append,
        List.takeWhile_cons_of_neg (by rw [out]; exact Bool.false_ne_true), List.append_nil]

/-- The bytes of a character after its first are the continuations in front. -/
theorem takeWhile_isContinuation {tail : List UInt8}
    (all : ∀ t ∈ tail, Byte.isContinuation t = true) (after : List Char) :
    (tail ++ encode after).takeWhile Byte.isContinuation = tail := by
  rw [List.takeWhile_append_of_pos all]
  cases after with
  | nil => rw [encode_nil, List.takeWhile_nil, List.append_nil]
  | cons c after =>
      obtain ⟨b, others, lead, first, -⟩ := exists_lead c
      rw [encode_cons, lead, List.cons_append,
        List.takeWhile_cons_of_neg (by rw [first]; exact Bool.false_ne_true), List.append_nil]

end Runs

end Utf8

-- ── Cursors between two texts ───────

namespace Cursor

open Utf8

/-- A cursor that stands between two texts. -/
def between (before after : List Char) : Cursor :=
  ⟨before ++ after, byteLength before⟩

variable {before after : List Char}

@[simp] theorem source_between : (between before after).source = before ++ after :=
  rfl

@[simp] theorem position_between : (between before after).position = byteLength before :=
  rfl

theorem between_append (before inside after : List Char) :
    between (before ++ inside) after = ⟨before ++ (inside ++ after),
      byteLength (before ++ inside)⟩ := by
  rw [between, List.append_assoc]

theorem remaining_between (before after : List Char) :
    (between before after).remaining = encode after := by
  show (encode (before ++ after)).drop (byteLength before) = _
  rw [encode_append, List.drop_left' (length_encode before)]

/-- A byte after the cursor is the byte at that place of the text after it. -/
theorem byteAt_between (before after : List Char) (n : Nat) :
    (between before after).byteAt (byteLength before + n) = ((encode after)[n]?).getD 0 := by
  show ((encode (before ++ after))[byteLength before + n]?).getD 0 = _
  rw [encode_append, List.getElem?_append_right (by rw [length_encode]; exact Nat.le_add_right ..),
    length_encode, Nat.add_sub_cancel_left]

theorem isEof_between_nil (before : List Char) : (between before []).isEof = true := by
  show decide ((encode (before ++ [])).length ≤ byteLength before) = true
  rw [List.append_nil, length_encode]
  exact decide_eq_true (Nat.le_refl _)

theorem isEof_between_cons (before : List Char) (c : Char) (after : List Char) :
    (between before (c :: after)).isEof = false := by
  have positive := Char.utf8Size_pos c
  show decide ((encode (before ++ c :: after)).length ≤ byteLength before) = false
  rw [length_encode, byteLength_append, byteLength_cons]
  exact decide_eq_false (by omega)

/-- The byte that is read next is the first one of the next character. -/
theorem current_between_cons {c : Char} {b : UInt8} {tail : List UInt8}
    (lead : String.utf8EncodeChar c = b :: tail) (before after : List Char) :
    (between before (c :: after)).current = b := by
  show (between before (c :: after)).byteAt (byteLength before + 0) = b
  rw [byteAt_between, encode_cons, lead]
  rfl

/-- An ASCII character is one byte. -/
theorem advance_between {c : Char} (ascii : c.toNat < 128) (before after : List Char) :
    (between before (c :: after)).advance = between (before ++ [c]) after := by
  have size := String.length_utf8EncodeChar c
  rw [utf8EncodeChar_of_lt ascii, List.length_singleton] at size
  rw [advance, isEof_between_cons, between_append, byteLength_append, byteLength_cons, ← size]
  rfl

section Classes

variable {p : UInt8 → Bool} {q : Char → Bool}

/-- Moving over bytes of a class is moving over the characters in front that are in the class. -/
theorem eatWhile_between (h : Mirrors p q) {inside : List Char} (all : ∀ c ∈ inside, q c = true)
    (stop : Element.Avoids q after) (before : List Char) :
    (between before (inside ++ after)).eatWhile p = between (before ++ inside) after := by
  rw [eatWhile, remaining_between, h.takeWhile_encode all stop, length_encode, between_append,
    byteLength_append]
  rfl

/-- The byte that is read next is in a class exactly if the next character is. -/
theorem current_between_iff (h : Mirrors p q) (zero : p 0 = false) :
    p (between before after).current = true ↔ ∃ c rest, after = c :: rest ∧ q c = true := by
  cases after with
  | nil =>
      have past : (between before []).current = 0 := by
        show (between before []).byteAt (byteLength before + 0) = 0
        rw [byteAt_between]
        rfl
      rw [past, zero]
      exact ⟨nofun, fun ⟨_, _, begins, _⟩ => nomatch begins⟩
  | cons c after =>
      obtain ⟨b, tail, lead, -, -⟩ := exists_lead c
      rw [current_between_cons lead, h c b (lead ▸ List.mem_cons_self)]
      constructor
      · intro stands
        exact ⟨c, after, rfl, stands⟩
      · rintro ⟨d, rest, begins, stands⟩
        obtain ⟨rfl, rfl⟩ := List.cons.inj begins
        exact stands

end Classes

/-- The byte that is read next is that of an ASCII character exactly if this character is next. Zero
is left out, for it is read past the end as well. -/
theorem current_between_eq_iff {a : Char} (ascii : a.toNat < 128) (visible : a.toNat ≠ 0) :
    (between before after).current = UInt8.ofNat a.toNat ↔ ∃ rest, after = a :: rest := by
  have zero : ((0 : UInt8) == UInt8.ofNat a.toNat) = false := by
    refine beq_false_of_ne fun equal => visible ?_
    have value := congrArg UInt8.toNat equal
    rw [UInt8.toNat_ofNat'] at value
    have zero : (0 : UInt8).toNat = 0 := rfl
    omega
  have next : ((between before after).current == UInt8.ofNat a.toNat) = true ↔ _ :=
    current_between_iff (mirrors_beq ascii) zero
  simp only [beq_iff_eq] at next
  rw [next]
  constructor
  · rintro ⟨c, rest, rfl, rfl⟩
    exact ⟨rest, rfl⟩
  · rintro ⟨rest, rfl⟩
    exact ⟨a, rest, rfl, rfl⟩

/-- The byte that is read next is not that of a character that does not come next. -/
theorem current_between_ne {a : Char} (ascii : a.toNat < 128) (visible : a.toNat ≠ 0)
    (stop : Element.Avoids (· == a) after) :
    (between before after).current ≠ UInt8.ofNat a.toNat := by
  intro read
  obtain ⟨rest, rfl⟩ := (current_between_eq_iff ascii visible).1 read
  have other : (a == a) = false := stop a rfl
  rw [beq_self_eq_true] at other
  exact Bool.false_ne_true other.symm

/-- The byte that is read next is the ASCII character that comes next. -/
theorem current_between_of_ascii {a : Char} (ascii : a.toNat < 128) (before after : List Char) :
    (between before (a :: after)).current = UInt8.ofNat a.toNat :=
  current_between_cons (utf8EncodeChar_of_lt ascii) before after

/-- The byte after the next one, behind an ASCII character, is the one that is read after that. -/
theorem peek_between {c : Char} (ascii : c.toNat < 128) (before after : List Char) :
    (between before (c :: after)).peek = (between (before ++ [c]) after).current := by
  show (between before (c :: after)).byteAt (byteLength before + 1) =
    (between (before ++ [c]) after).byteAt (byteLength (before ++ [c]) + 0)
  rw [byteAt_between, byteAt_between, encode_cons, utf8EncodeChar_of_lt ascii]
  rfl

/-- Moving over one byte and then over continuations is moving over one character, whatever it
is. -/
theorem eatWhile_isContinuation_between (before : List Char) (c : Char) (after : List Char) :
    (between before (c :: after)).advance.eatWhile Byte.isContinuation =
      between (before ++ [c]) after := by
  obtain ⟨b, tail, lead, -, continuations⟩ := exists_lead c
  have size := String.length_utf8EncodeChar c
  rw [lead, List.length_cons] at size
  have moved :
      (between before (c :: after)).advance = ⟨before ++ c :: after,
        byteLength before + 1⟩ := by
    rw [advance, isEof_between_cons]
    rfl
  have remaining : (between before (c :: after)).advance.remaining = tail ++ encode after := by
    have rest := remaining_between before (c :: after)
    rw [encode_cons, lead, List.cons_append] at rest
    rw [moved]
    show (encode (before ++ c :: after)).drop (byteLength before + 1) = _
    rw [← List.drop_drop]
    exact congrArg (List.drop 1) rest
  rw [eatWhile, remaining, takeWhile_isContinuation continuations, moved, between_append,
    byteLength_append, byteLength_cons, ← size, byteLength_nil, Nat.add_zero, Nat.add_assoc,
    Nat.add_comm 1]
  rfl

end Cursor

end LoxScan
