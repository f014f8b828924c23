import LoxScan.Text.Utf8

/-!
# Kinds of tokens

The kinds fall into three families and a marker: nineteen punctuators and sixteen reserved words,
each with one fixed spelling, three open classes (identifier, string, number), and the end of the
input. The two closed families are types of their own, so a kind is a keyword or a punctuator by its
constructor.

The texts of the reserved words are written down in three tables, each for its own use: the list of
them all, the names that dumps show, and the lookup, which asks for the length of a word before it
compares it with anything. The spelling of a keyword is what the three have to agree with.

* **`Keyword.ofSpelling?_eq_some_iff`**: looking a word up finds a keyword exactly when the word is
  its spelling. Nothing else is reserved, and case matters.
* **`Keyword.mem_reserved_iff`**: the words that are found are those of the list.
* **`Keyword.name_eq`**: a keyword is named by its spelling in upper case.
* **`Kind.ofWord_cases`**: a word is a keyword or an identifier.
* **`Kind.ofName?_name`**: every kind is found by its name.
-/

namespace LoxScan

/-- The operators and delimiters. -/
inductive Punctuator
  | leftParen | rightParen | leftBrace | rightBrace
  | comma | dot | minus | plus | semicolon | slash | star
  | bang | bangEqual | equal | equalEqual
  | greater | greaterEqual | less | lessEqual
deriving DecidableEq

/-- The reserved words, in alphabetical order. -/
inductive Keyword
  | andWord | classWord | elseWord | falseWord | forWord | funWord | ifWord | nilWord
  | orWord | printWord | returnWord | superWord | thisWord | trueWord | varWord | whileWord
deriving DecidableEq

/-- The lexical category of a token. -/
inductive Kind
  | punctuator (p : Punctuator)
  | identifier
  | string
  | number
  | keyword (k : Keyword)
  | eof
deriving DecidableEq

-- ── Punctuators ─────────────────────

namespace Punctuator

/-- All punctuators. -/
def all : List Punctuator :=
  [leftParen, rightParen, leftBrace, rightBrace, comma, dot, minus, plus, semicolon, slash, star,
    bang, bangEqual, equal, equalEqual, greater, greaterEqual, less, lessEqual]

/-- The text of a punctuator. -/
def spelling : Punctuator → String
  | leftParen => "("
  | rightParen => ")"
  | leftBrace => "\x7b"
  | rightBrace => "\x7d"
  | comma => ","
  | dot => "."
  | minus => "-"
  | plus => "+"
  | semicolon => ";"
  | slash => "/"
  | star => "*"
  | bang => "!"
  | bangEqual => "!="
  | equal => "="
  | equalEqual => "=="
  | greater => ">"
  | greaterEqual => ">="
  | less => "<"
  | lessEqual => "<="

/-- The name of a punctuator. -/
def name : Punctuator → String
  | leftParen => "LEFT_PAREN"
  | rightParen => "RIGHT_PAREN"
  | leftBrace => "LEFT_BRACE"
  | rightBrace => "RIGHT_BRACE"
  | comma => "COMMA"
  | dot => "DOT"
  | minus => "MINUS"
  | plus => "PLUS"
  | semicolon => "SEMICOLON"
  | slash => "SLASH"
  | star => "STAR"
  | bang => "BANG"
  | bangEqual => "BANG_EQUAL"
  | equal => "EQUAL"
  | equalEqual => "EQUAL_EQUAL"
  | greater => "GREATER"
  | greaterEqual => "GREATER_EQUAL"
  | less => "LESS"
  | lessEqual => "LESS_EQUAL"

theorem mem_all (p : Punctuator) : p ∈ all := by
  cases p <;> decide

theorem spelling_injective {p q : Punctuator} (h : p.spelling = q.spelling) : p = q := by
  revert h
  cases p <;> cases q <;> decide

@[simp] theorem spelling_ne_empty (p : Punctuator) : p.spelling ≠ "" := by
  cases p <;> decide

end Punctuator

-- ── Reserved words ──────────────────

namespace Keyword

/-- All reserved words, in alphabetical order of their spellings. -/
def all : List Keyword :=
  [andWord, classWord, elseWord, falseWord, forWord, funWord, ifWord, nilWord,
    orWord, printWord, returnWord, superWord, thisWord, trueWord, varWord, whileWord]

/-- The text of a reserved word. -/
def spelling : Keyword → String
  | andWord => "and"
  | classWord => "class"
  | elseWord => "else"
  | falseWord => "false"
  | forWord => "for"
  | funWord => "fun"
  | ifWord => "if"
  | nilWord => "nil"
  | orWord => "or"
  | printWord => "print"
  | returnWord => "return"
  | superWord => "super"
  | thisWord => "this"
  | trueWord => "true"
  | varWord => "var"
  | whileWord => "while"

/-- The name of a reserved word. -/
def name : Keyword → String
  | andWord => "AND"
  | classWord => "CLASS"
  | elseWord => "ELSE"
  | falseWord => "FALSE"
  | forWord => "FOR"
  | funWord => "FUN"
  | ifWord => "IF"
  | nilWord => "NIL"
  | orWord => "OR"
  | printWord => "PRINT"
  | returnWord => "RETURN"
  | superWord => "SUPER"
  | thisWord => "THIS"
  | trueWord => "TRUE"
  | varWord => "VAR"
  | whileWord => "WHILE"

/-- Every text that is reserved, in alphabetical order. -/
def reserved : List String :=
  ["and", "class", "else", "false", "for", "fun", "if", "nil", "or", "print", "return", "super",
    "this", "true", "var", "while"]

/-- The reserved word with a given spelling. Texts of a length that no reserved word has are turned
down without a comparison. -/
def ofSpelling? (text : String) : Option Keyword :=
  match Utf8.byteLength text.toList with
  | 2 =>
    match text with
    | "if" => some ifWord
    | "or" => some orWord
    | _ => none
  | 3 =>
    match text with
    | "and" => some andWord
    | "for" => some forWord
    | "fun" => some funWord
    | "nil" => some nilWord
    | "var" => some varWord
    | _ => none
  | 4 =>
    match text with
    | "else" => some elseWord
    | "this" => some thisWord
    | "true" => some trueWord
    | _ => none
  | 5 =>
    match text with
    | "class" => some classWord
    | "false" => some falseWord
    | "print" => some printWord
    | "super" => some superWord
    | "while" => some whileWord
    | _ => none
  | 6 =>
    match text with
    | "return" => some returnWord
    | _ => none
  | _ => none

theorem mem_all (k : Keyword) : k ∈ all := by
  cases k <;> decide

theorem spelling_injective {k l : Keyword} (h : k.spelling = l.spelling) : k = l := by
  revert h
  cases k <;> cases l <;> decide

@[simp] theorem ofSpelling?_spelling (k : Keyword) : ofSpelling? k.spelling = some k := by
  cases k <;> decide

/-- A word is looked up as a keyword exactly if it is the spelling of it. -/
theorem ofSpelling?_eq_some_iff {text : String} {k : Keyword} :
    ofSpelling? text = some k ↔ k.spelling = text := by
  constructor
  · intro found
    unfold ofSpelling? at found
    -- One case for each entry of the table, and one for each default, which has found nothing.
    repeat' split at found
    all_goals cases found
    all_goals rfl
  · rintro rfl
    exact ofSpelling?_spelling k

/-- The list of reserved texts is that of the spellings. -/
theorem reserved_eq : reserved = all.map spelling :=
  rfl

/-- What is reserved is found, and nothing else. -/
theorem mem_reserved_iff {text : String} :
    text ∈ reserved ↔ ∃ k, ofSpelling? text = some k := by
  simp only [reserved_eq, List.mem_map, mem_all, true_and, ofSpelling?_eq_some_iff]

/-- A reserved word is named by its spelling in upper case. -/
theorem name_eq (k : Keyword) : k.name = String.ofList (k.spelling.toList.map Char.toUpper) := by
  cases k <;> decide

end Keyword

-- ── Kinds ───────────────────────────

namespace Kind

/-- All kinds. -/
def all : List Kind :=
  Punctuator.all.map punctuator ++ [identifier, string, number] ++ Keyword.all.map keyword ++ [eof]

/-- The name of a kind in upper snake case, as token dumps show it. -/
def name : Kind → String
  | punctuator p => p.name
  | identifier => "IDENTIFIER"
  | string => "STRING"
  | number => "NUMBER"
  | keyword k => k.name
  | eof => "EOF"

/-- The kind with a given name. -/
def ofName? (text : String) : Option Kind :=
  all.find? (·.name = text)

/-- The kind of a word: a keyword if it is reserved, an identifier if not. -/
def ofWord (letters : String) : Kind :=
  match Keyword.ofSpelling? letters with
  | some k => keyword k
  | none => identifier

/-- The reserved words are the keywords. -/
def isKeyword : Kind → Bool
  | keyword _ => true
  | _ => false

/-- Strings and numbers carry a decoded value. -/
def hasLiteral : Kind → Bool
  | string | number => true
  | _ => false

theorem ofWord_of_some {letters : String} {k : Keyword}
    (found : Keyword.ofSpelling? letters = some k) : ofWord letters = keyword k := by
  rw [ofWord, found]

theorem ofWord_of_none {letters : String} (other : Keyword.ofSpelling? letters = none) :
    ofWord letters = identifier := by
  rw [ofWord, other]

/-- A word is a keyword or an identifier. -/
theorem ofWord_cases (letters : String) :
    (∃ k, ofWord letters = keyword k) ∨ ofWord letters = identifier := by
  cases found : Keyword.ofSpelling? letters with
  | some k => exact Or.inl ⟨k, ofWord_of_some found⟩
  | none => exact Or.inr (ofWord_of_none found)

theorem mem_all (k : Kind) : k ∈ all := by
  cases k with
  | punctuator p => simp [all, Punctuator.mem_all]
  | keyword w => simp [all, Keyword.mem_all]
  | _ => simp [all]

theorem ofName?_name (k : Kind) : ofName? k.name = some k := by
  cases k with
  | punctuator p => cases p <;> decide
  | keyword w => cases w <;> decide
  | _ => decide

end Kind

end LoxScan
