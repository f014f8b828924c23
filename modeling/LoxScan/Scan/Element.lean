import LoxScan.Token.Kind

/-!
# Lexical elements

A source text is a row of elements: punctuators, strings, numbers, words, comments, single blanks,
and two malformed ones, a string that is never closed and a character that can begin nothing else.
An element keeps exactly the characters that make it up, so its text can be written back
(`Element.text`), and reading (`Element.next`, `Element.tile`) only decides where one element ends
and the next begins.

At every point the longest element is taken. Which rule applies is settled by the first character,
except that a slash needs the next one; how far the element goes is settled by the class of the
characters that follow, with two characters of lookahead for the point of a number.

* **`text_next_append`**: an element and what is left of the text make up the text.
* **`flatMap_text_tile`**: the elements of a text, written one after another, are the text.
* **`length_next_lt`**: every element takes at least one character, which is why `tile` ends.
-/

namespace LoxScan

-- ── Character classes ───────────────

/-- The four blanks: space, carriage return, tab and line feed. -/
def isBlank (c : Char) : Bool :=
  c == ' ' || c == '\r' || c == '\t' || c == '\n'

/-- A word begins with an ASCII letter or an underscore. -/
def isWordStart (c : Char) : Bool :=
  c.isAlpha || c == '_'

/-- A word goes on with ASCII letters, ASCII digits and underscores. -/
def isWordRest (c : Char) : Bool :=
  c.isAlphanum || c == '_'

namespace Punctuator

/-- The punctuator that one character spells. -/
def ofChar? : Char → Option Punctuator
  | '(' => some leftParen
  | ')' => some rightParen
  | '\x7b' => some leftBrace
  | '\x7d' => some rightBrace
  | ',' => some comma
  | '.' => some dot
  | '-' => some minus
  | '+' => some plus
  | ';' => some semicolon
  | '/' => some slash
  | '*' => some star
  | '!' => some bang
  | '=' => some equal
  | '>' => some greater
  | '<' => some less
  | _ => none

/-- The longer punctuator that a punctuator and an equals sign spell together. -/
def withEqual? : Punctuator → Option Punctuator
  | bang => some bangEqual
  | equal => some equalEqual
  | greater => some greaterEqual
  | less => some lessEqual
  | _ => none

theorem spelling_of_ofChar? {c : Char} {p : Punctuator} (h : ofChar? c = some p) :
    p.spelling.toList = [c] := by
  unfold ofChar? at h
  split at h <;> cases h <;> decide

theorem spelling_of_withEqual? {p q : Punctuator} (h : p.withEqual? = some q) :
    q.spelling.toList = p.spelling.toList ++ ['='] := by
  revert h
  cases p <;> cases q <;> decide

end Punctuator

-- ── Elements and their texts ────────

/-- A piece of source, by the characters that make it up: the body of a string without its quotes,
the digits of a number before and after the point, the body of a comment after its slashes. -/
inductive Element
  | punctuator (p : Punctuator)
  | string (body : List Char)
  | number (whole fraction : List Char)
  | word (letters : List Char)
  | comment (body : List Char)
  | blank (c : Char)
  | openString (body : List Char)
  | stray (c : Char)
deriving DecidableEq

namespace Element

/-- The characters of an element. A number has a point only before a fraction. -/
def text : Element → List Char
  | punctuator p => p.spelling.toList
  | string body => '"' :: body ++ ['"']
  | number whole [] => whole
  | number whole (d :: fraction) => whole ++ '.' :: d :: fraction
  | word letters => letters
  | comment body => '/' :: '/' :: body
  | blank c => [c]
  | openString body => '"' :: body
  | stray c => [c]

-- ── Reading one element ─────────────

/-- Reads on after an opening quote: up to the next quote, or to the end if there is none. -/
def nextString (rest : List Char) : Element × List Char :=
  match rest.dropWhile (· ≠ '"') with
  | [] => (openString rest, [])
  | _ :: after => (string (rest.takeWhile (· ≠ '"')), after)

/-- Reads on after the first digit of a number. A point belongs to the number only if a digit
follows it. -/
def nextNumber (first : Char) (rest : List Char) : Element × List Char :=
  let whole := first :: rest.takeWhile Char.isDigit
  match rest.dropWhile Char.isDigit with
  | '.' :: d :: more =>
    if d.isDigit then (number whole (d :: more.takeWhile Char.isDigit), more.dropWhile Char.isDigit)
    else (number whole [], '.' :: d :: more)
  | after => (number whole [], after)

/-- Reads on after the first letter of a word. -/
def nextWord (first : Char) (rest : List Char) : Element × List Char :=
  (word (first :: rest.takeWhile isWordRest), rest.dropWhile isWordRest)

/-- Reads on after a slash: a second slash begins a comment, which leaves its line feed unread. -/
def nextSlash : List Char → Element × List Char
  | '/' :: after => (comment (after.takeWhile (· ≠ '\n')), after.dropWhile (· ≠ '\n'))
  | rest => (punctuator .slash, rest)

/-- Reads on after a punctuator of one character: an equals sign makes some of them longer. -/
def nextPunctuator (p : Punctuator) (rest : List Char) : Element × List Char :=
  match p.withEqual?, rest with
  | some longer, '=' :: after => (punctuator longer, after)
  | _, _ => (punctuator p, rest)

/-- The longest element at the head of a non-empty text, and what is left of the text. -/
def next (c : Char) (rest : List Char) : Element × List Char :=
  if isBlank c then (blank c, rest)
  else if c = '"' then nextString rest
  else if c.isDigit then nextNumber c rest
  else if isWordStart c then nextWord c rest
  else if c = '/' then nextSlash rest
  else
    match Punctuator.ofChar? c with
    | some p => nextPunctuator p rest
    | none => (stray c, rest)

-- ── Nothing is lost ─────────────────

theorem text_nextString_append (rest : List Char) :
    (nextString rest).1.text ++ (nextString rest).2 = '"' :: rest := by
  rw [nextString]
  split
  case h_1 => simp [text]
  case h_2 q after h =>
    have quote : q = '"' := by
      have head := List.head?_dropWhile_not (· ≠ '"') rest
      rw [h] at head
      simpa using head
    have whole := List.takeWhile_append_dropWhile (p := (· ≠ '"')) (l := rest)
    rw [h, quote] at whole
    simp only [text, List.cons_append, List.append_assoc, List.nil_append]
    rw [whole]

theorem text_nextNumber_append (first : Char) (rest : List Char) :
    (nextNumber first rest).1.text ++ (nextNumber first rest).2 = first :: rest := by
  have whole := List.takeWhile_append_dropWhile (p := Char.isDigit) (l := rest)
  rw [nextNumber]
  split
  case h_1 d more h =>
    rw [h] at whole
    split
    case isTrue =>
      have tail := List.takeWhile_append_dropWhile (p := Char.isDigit) (l := more)
      simp only [text, List.cons_append, List.append_assoc]
      rw [tail, whole]
    case isFalse =>
      simp only [text, List.cons_append]
      rw [whole]
  case h_2 =>
    simp only [text, List.cons_append]
    rw [whole]

theorem text_nextWord_append (first : Char) (rest : List Char) :
    (nextWord first rest).1.text ++ (nextWord first rest).2 = first :: rest := by
  simp [nextWord, text]

theorem text_nextSlash_append (rest : List Char) :
    (nextSlash rest).1.text ++ (nextSlash rest).2 = '/' :: rest := by
  unfold nextSlash
  split
  case h_1 after => simp [text]
  case h_2 => rfl

theorem text_nextPunctuator_append (p : Punctuator) (rest : List Char) :
    (nextPunctuator p rest).1.text ++ (nextPunctuator p rest).2 = p.spelling.toList ++ rest := by
  unfold nextPunctuator
  split
  case h_1 longer after h => simp [text, Punctuator.spelling_of_withEqual? h]
  case h_2 => rfl

/-- An element and what is left of the text make up the text. -/
theorem text_next_append (c : Char) (rest : List Char) :
    (next c rest).1.text ++ (next c rest).2 = c :: rest := by
  rw [next]
  split
  case isTrue => rfl
  case isFalse =>
    split
    case isTrue h => subst h; exact text_nextString_append rest
    case isFalse =>
      split
      case isTrue => exact text_nextNumber_append c rest
      case isFalse =>
        split
        case isTrue => exact text_nextWord_append c rest
        case isFalse =>
          split
          case isTrue h => subst h; exact text_nextSlash_append rest
          case isFalse =>
            split
            case h_1 p h =>
              rw [text_nextPunctuator_append, Punctuator.spelling_of_ofChar? h]
              rfl
            case h_2 => rfl

theorem text_ne_nil_of_next (c : Char) (rest : List Char) : (next c rest).1.text ≠ [] := by
  unfold next nextString nextNumber nextWord nextSlash nextPunctuator
  repeat' split
  all_goals simp [text]

theorem length_next_lt (c : Char) (rest : List Char) :
    (next c rest).2.length < (c :: rest).length := by
  have whole := congrArg List.length (text_next_append c rest)
  have positive := List.length_pos_iff.2 (text_ne_nil_of_next c rest)
  rw [List.length_append] at whole
  omega

-- ── Reading a whole text ────────────

/-- The elements of a text, from its start to its end. -/
def tile : List Char → List Element
  | [] => []
  | c :: rest =>
    let found := next c rest
    found.1 :: tile found.2
termination_by text => text.length
decreasing_by exact length_next_lt c rest

@[simp] theorem tile_nil : tile [] = [] := by
  rw [tile]

theorem tile_cons (c : Char) (rest : List Char) :
    tile (c :: rest) = (next c rest).1 :: tile (next c rest).2 := by
  rw [tile]

/-- The elements of a text, written one after another, are the text. -/
theorem flatMap_text_tile (source : List Char) : (tile source).flatMap text = source := by
  fun_induction tile source with
  | case1 => rfl
  | case2 c rest found ih =>
      rw [List.flatMap_cons, ih]
      exact text_next_append c rest

end Element

end LoxScan
