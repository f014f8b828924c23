import LoxScan.Proofs.DumpReading
import LoxScan.Text.ByteLines

/-!
# The lines of a dump

What is printed of a token ends with a line feed, but this does not make it one line. There are no
escapes in it: the lexeme of a string goes over the line feeds of its body, and its value, if asked
for, goes over them again. Strings are the only tokens of which this can be said. So the line feeds
of a dump can be counted in its tokens, and it has one line for each of them exactly if none of its
strings is broken over lines.

* **`count_dump`**: a dump has one line feed after each token and those of the lexemes, or twice
  those.
* **`byteLines_dump`**: without broken strings it is cut at its line feeds into what is printed of
  each token.
* **`dump_line_feeds`**: so what is printed of a source has one line for each token exactly if no
  string of it is broken.
-/

namespace LoxScan

open Utf8

-- ── Line feeds of a text ────────────

/-- Encoding neither adds line feeds nor takes any away. -/
theorem Utf8.lineFeeds_encode (text : List Char) : lineFeeds (encode text) = text.count '\n' := by
  induction text with
  | nil => rfl
  | cons c text ih =>
      rw [encode_cons, lineFeeds_append, ih, lineFeeds]
      by_cases newline : c = '\n'
      · have one : (String.utf8EncodeChar '\n').count 10 = 1 := by decide
        rw [newline, one, List.count_cons_self, Nat.add_comm]
      · have flat : 10 ∉ encode [c] :=
          newline_not_mem_encode fun inside => newline (List.mem_singleton.1 inside).symm
        rw [encode_cons, encode_nil, List.append_nil] at flat
        rw [List.count_eq_zero_of_not_mem flat, List.count_cons_of_ne newline, Nat.zero_add]

-- ── What is printed of one token ────

namespace Token

variable {t : Token}

/-- A solid lexeme goes over no line feed. -/
theorem newline_not_mem_of_isSolid {text : List Char}
    (solid : ∀ c ∈ text, Dump.isSolid c = true) :
    '\n' ∉ text := fun inside => absurd (solid '\n' inside) (by decide)

/-- Only strings are broken over lines. -/
theorem Legible.kind_of_newline (legible : t.Legible) (newline : '\n' ∈ t.lexeme.toList) :
    t.kind = .string := by
  cases legible with
  | string _ kind => exact kind
  | solid _ lexeme => exact absurd newline (newline_not_mem_of_isSolid lexeme)

/-- A value has the line feeds of the lexeme. -/
theorem Legible.count_valueText (legible : t.Legible) :
    (t.valueText true).count '\n' = t.lexeme.toList.count '\n' := by
  cases legible with
  | string body kind closed lexeme literal =>
      rw [valueText, literal, lexeme]
      simp [Literal.text]
  | solid kind lexeme flat =>
      rw [List.count_eq_zero_of_not_mem (newline_not_mem_of_isSolid lexeme)]
      refine List.count_eq_zero_of_not_mem ?_
      rcases t.valueText_cases true with nothing | ⟨literal, found, text⟩
      · rw [nothing]
        exact List.not_mem_nil
      · rw [text, List.mem_cons]
        exact fun inside => inside.elim (by decide) (flat literal found)

/-- A lexeme is printed once, and its line feeds once more with its value, if values are asked
for. -/
def copies (literals : Bool) : Nat :=
  if literals then 2 else 1

/-- What is printed of a token before the line feed at its end. -/
def entry (t : Token) (literals : Bool) : List Char :=
  t.kind.name.toList ++ ' ' :: (t.lexeme.toList ++ t.valueText literals)

theorem toList_dumpLine_eq_entry (t : Token) (literals : Bool) :
    (t.dumpLine literals).toList = t.entry literals ++ ['\n'] := by
  rw [toList_dumpLine, entry]
  simp only [List.append_assoc, List.cons_append]

/-- **One token.** An entry has the line feeds of the lexeme, and those once more if values are
asked for. -/
theorem Legible.count_entry (legible : t.Legible) (literals : Bool) :
    (t.entry literals).count '\n' = copies literals * t.lexeme.toList.count '\n' := by
  have name : t.kind.name.toList.count '\n' = 0 :=
    List.count_eq_zero_of_not_mem (t.kind.not_mem_name (by decide))
  have blank : ' ' ≠ '\n' := by decide
  rw [entry, List.count_append, name, Nat.zero_add, List.count_cons_of_ne blank, List.count_append]
  cases literals with
  | false =>
      have nothing : t.valueText false = [] := by
        rw [valueText]
        cases t.literal <;> rfl
      rw [nothing, copies, if_neg Bool.false_ne_true, List.count_nil, Nat.one_mul, Nat.add_zero]
  | true => rw [legible.count_valueText, copies, if_pos rfl, Nat.two_mul]

/-- What is printed of a token begins with the name of its kind and a blank. -/
theorem name_isPrefix_dumpLine (t : Token) (literals : Bool) :
    encode (t.kind.name ++ " ").toList <+: encode (t.dumpLine literals).toList := by
  have blank : " ".toList = [' '] := by decide
  refine ⟨encode (t.lexeme.toList ++ (t.valueText literals ++ ['\n'])), ?_⟩
  rw [toList_dumpLine, ← encode_append, String.toList_append, blank, List.append_assoc,
    List.singleton_append]

/-- If the lexeme is not broken, it is one line. -/
theorem Legible.exists_line (legible : t.Legible) (unbroken : '\n' ∉ t.lexeme.toList)
    (literals : Bool) :
    ∃ body, encode (t.dumpLine literals).toList = body ++ [10] ∧ 10 ∉ body := by
  have flat := legible.count_entry literals
  rw [List.count_eq_zero_of_not_mem unbroken, Nat.mul_zero] at flat
  have newline : encode ['\n'] = [10] := by decide
  refine ⟨encode (t.entry literals), ?_, newline_not_mem_encode (List.count_eq_zero.1 flat)⟩
  rw [toList_dumpLine_eq_entry, encode_append, newline]

end Token

-- ── Dumps ───────────────────────────

namespace Dump

variable {tokens : List Token}

/-- What is printed has as many line feeds as there are tokens, and the line of each token begins
with the name of its kind and a blank. -/
structure OneLineEach (printed : List UInt8) (tokens : List Token) : Prop where
  count : lineFeeds printed = tokens.length
  begins : List.Forall₂ (fun line t => encode (t.kind.name ++ " ").toList <+: line)
    (byteLines printed) tokens

/-- The line feeds of the lexemes of tokens. -/
def lexemeLineFeeds (tokens : List Token) : Nat :=
  (tokens.map fun t => t.lexeme.toList.count '\n').sum

theorem lexemeLineFeeds_eq_zero_iff :
    lexemeLineFeeds tokens = 0 ↔ ∀ t ∈ tokens, '\n' ∉ t.lexeme.toList := by
  rw [lexemeLineFeeds, List.sum_eq_zero_iff_forall_eq_nat, List.forall_mem_map]
  simp only [List.count_eq_zero]

/-- **The line feeds of a dump.** There is one after each token, and the others are those of the
entries. -/
theorem count_dump (literals : Bool) (legible : ∀ t ∈ tokens, t.Legible) :
    lineFeeds (encode (tokens.flatMap fun t => (t.dumpLine literals).toList)) =
      tokens.length + Token.copies literals * lexemeLineFeeds tokens := by
  rw [lineFeeds_encode]
  induction tokens with
  | nil => rfl
  | cons t tokens ih =>
      have first : (t.dumpLine literals).toList.count '\n' =
          Token.copies literals * t.lexeme.toList.count '\n' + 1 := by
        rw [Token.toList_dumpLine_eq_entry, List.count_append,
          (legible t List.mem_cons_self).count_entry, List.count_singleton_self]
      have later := ih fun u hu => legible u (List.mem_cons_of_mem t hu)
      have feeds :
        lexemeLineFeeds (t :: tokens) = t.lexeme.toList.count '\n' + lexemeLineFeeds tokens := rfl
      rw [List.flatMap_cons, List.count_append, first, later, feeds, Nat.mul_add, List.length_cons]
      omega

/-- **Unbroken lexemes.** Then a dump is cut at its line feeds into what is printed of each
token. -/
theorem byteLines_dump (literals : Bool) (legible : ∀ t ∈ tokens, t.Legible)
    (unbroken : ∀ t ∈ tokens, '\n' ∉ t.lexeme.toList) :
    byteLines (encode (tokens.flatMap fun t => (t.dumpLine literals).toList)) =
      tokens.map fun t => encode (t.dumpLine literals).toList := by
  have joined : encode (tokens.flatMap fun t => (t.dumpLine literals).toList) =
      (tokens.map fun t => encode (t.dumpLine literals).toList).flatten := by
    rw [encode, List.flatMap_assoc]
    rfl
  rw [joined]
  refine byteLines_of_ended fun line inside => ?_
  obtain ⟨t, ht, rfl⟩ := List.mem_map.1 inside
  exact (legible t ht).exists_line (unbroken t ht) literals

/-- **One line for each token.** A dump has it exactly if no lexeme is broken: every other line feed
is one too many. -/
theorem oneLineEach_iff (literals : Bool) (legible : ∀ t ∈ tokens, t.Legible) :
    OneLineEach (encode (tokens.flatMap fun t => (t.dumpLine literals).toList)) tokens ↔
      ∀ t ∈ tokens, '\n' ∉ t.lexeme.toList := by
  have counted := count_dump literals legible
  constructor
  · intro each
    have flat : Token.copies literals * lexemeLineFeeds tokens = 0 :=
      Nat.left_eq_add.1 (each.count.symm.trans counted)
    have copied : Token.copies literals ≠ 0 := by
      rw [Token.copies]
      split <;> decide
    exact lexemeLineFeeds_eq_zero_iff.1 ((Nat.mul_eq_zero.1 flat).resolve_left copied)
  · intro unbroken
    refine ⟨?_, ?_⟩
    · rw [counted, lexemeLineFeeds_eq_zero_iff.2 unbroken, Nat.mul_zero, Nat.add_zero]
    · rw [byteLines_dump literals legible unbroken, List.forall₂_map_left_iff,
        List.forall₂_same]
      exact fun t _ => t.name_isPrefix_dumpLine literals

end Dump

/-- What is printed of a source has one line feed after each token and those of the lexemes, these
twice over if values are asked for. Only the lexemes of strings have any; and there is one line for
each token, beginning with the name of its kind and a blank, exactly if none of them has. -/
structure DumpLineFeeds (literals : Bool) (tokens : List Token) (printed : List UInt8) : Prop where
  counted : lineFeeds printed = tokens.length + Token.copies literals * Dump.lexemeLineFeeds tokens
  broken : ∀ t ∈ tokens, '\n' ∈ t.lexeme.toList → t.kind = .string
  oneLineEach_iff : Dump.OneLineEach printed tokens ↔ ∀ t ∈ tokens, '\n' ∉ t.lexeme.toList

/-- **Line feeds of dumps.** Whatever is asked about values and whoever is told of the faults, there
is one line for each token exactly if no string is broken over lines. -/
theorem dump_line_feeds {ρ : Type} [Reporter ρ] (config : Config) (source : String)
    (reporter : ρ) :
    DumpLineFeeds config.showLiterals (Scan.ofString source).tokens
      (Script.printed config source reporter) := by
  have legible : ∀ t ∈ (Scan.ofString source).tokens, t.Legible := fun t ht =>
    Scan.legible_of_mem_tokens ht
  rw [Script.printed_eq]
  exact ⟨Dump.count_dump _ legible, fun t ht => (legible t ht).kind_of_newline,
    Dump.oneLineEach_iff _ legible⟩

/-- A string over two lines is printed as it stands, so there are three lines for two tokens. -/
theorem not_oneLineEach_broken_string :
    ¬ Dump.OneLineEach (Script.printed {} "\"a\nb\"" (Queue.withLimit 0))
      (Scan.ofString "\"a\nb\"").tokens := by
  intro each
  have count := each.count
  rw [Script.printed_eq] at count
  exact absurd count (by decide +kernel)

end LoxScan
