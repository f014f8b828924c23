import LoxScan.Run.Config
import Mathlib.Data.List.Forall2
import Mathlib.Data.List.Induction

/-!
# What arguments choose

Arguments are taken in order, and what is taken changes what was chosen before. Nevertheless the
order hardly matters. Each argument says something about one thing (`Argument.Family`), and of all
that is said about a thing the last counts, be it a request, colours or a limit. A script can be
named only once, and values are asked for or not. So what arguments choose can be said of them as a
whole (`Config.ofArguments`).

The order does matter for a failure, which is that of the first argument that is refused: by itself,
or because it is a script after another one. No request comes before a failure, for it is answered
only after all arguments are taken.

* **`ofString_eq_ok_iff`**, **`exists_error_iff`**: one argument is read as what its text spells, or
  refused in the words for that text.
* **`add_ofArguments`**: one argument more is taken, unless it is a second script.
* **`foldlM_eq_error_iff`**: what is taken in order fails at the first thing that fails after those
  before it.
* **`arguments_decide`**: so which arguments are accepted, what they choose, and how the others are
  refused.
-/

namespace LoxScan

-- ── Arguments by their texts ────────

namespace Argument

/-- The texts of a limit: the decimal digits of a number of 64 bits, with or without a plus sign in
front. -/
inductive SpellsLimit : String → Nat → Prop
  | plain {digits : List Char} : digits ≠ [] → (∀ d ∈ digits, d.isDigit = true) →
      Decimal.valueOfDigits digits ≤ 18446744073709551615 →
      SpellsLimit (String.ofList digits) (Decimal.valueOfDigits digits)
  | signed {digits : List Char} : digits ≠ [] → (∀ d ∈ digits, d.isDigit = true) →
      Decimal.valueOfDigits digits ≤ 18446744073709551615 →
      SpellsLimit (String.ofList ('+' :: digits)) (Decimal.valueOfDigits digits)

/-- A text that does not begin with a dash, or is nothing else. -/
def IsPositional (text : String) : Prop :=
  text = "-" ∨ text.toList.head? ≠ some '-'

/-- The texts of an argument. -/
inductive Spells : String → Argument → Prop
  | shortHelp : Spells "-h" help
  | longHelp : Spells "--help" help
  | shortVersion : Spells "-V" version
  | longVersion : Spells "--version" version
  | literals : Spells "--literals" literals
  | autoColor : Spells "--color=auto" (color .auto)
  | alwaysColor : Spells "--color=always" (color .always)
  | neverColor : Spells "--color=never" (color .never)
  | errorLimit {value : String} {n : Nat} : SpellsLimit value n →
      Spells ("--error-limit=" ++ value) (errorLimit n)
  | script {path : String} : IsPositional path → Spells path (script path)

/-- The texts that are refused by themselves, and the words for it. -/
inductive RefusedWith : String → String → Prop
  | color {value : String} : value ≠ "auto" → value ≠ "always" → value ≠ "never" →
      RefusedWith ("--color=" ++ value)
        ("invalid --color value '" ++ value ++ "' (expected auto, always or never)")
  | errorLimit {value : String} : (∀ n, ¬ SpellsLimit value n) →
      RefusedWith ("--error-limit=" ++ value) ("invalid --error-limit value '" ++ value ++ "'")
  | unknown {text : String} : (∀ a, ¬ Spells text a) →
    (∀ value, text ≠ "--color=" ++ value) →
      (∀ value, text ≠ "--error-limit=" ++ value) →
        RefusedWith text ("unknown option '" ++ text ++ "'")

theorem after?_eq_some_iff {start text value : String} :
    after? start text = some value ↔ text = start ++ value := by
  rw [after?, Option.map_eq_some_iff]
  constructor
  · rintro ⟨rest, cut, rfl⟩
    rw [List.isPrefixOf?_eq_some_iff_append_eq] at cut
    rw [← String.toList_inj, String.toList_append, String.toList_ofList, cut]
  · rintro rfl
    refine ⟨value.toList, ?_, String.ofList_toList⟩
    rw [List.isPrefixOf?_eq_some_iff_append_eq, String.toList_append]

theorem limitOfDigits?_eq_some_iff {digits : List Char} {n : Nat} :
    limitOfDigits? digits = some n ↔ digits ≠ [] ∧ (∀ d ∈ digits, d.isDigit = true) ∧
      Decimal.valueOfDigits digits ≤ 18446744073709551615 ∧
        Decimal.valueOfDigits digits = n := by
  rw [limitOfDigits?, largestLimit]
  simp only [Option.ite_none_right_eq_some, List.all_eq_true, Option.some.injEq, and_assoc]

theorem limitOfString?_eq_some_iff {value : String} {n : Nat} :
    limitOfString? value = some n ↔ SpellsLimit value n := by
  rw [limitOfString?]
  constructor
  · intro h
    split at h
    case h_1 digits signed =>
      obtain ⟨nonempty, decimal, fits, rfl⟩ := limitOfDigits?_eq_some_iff.1 h
      have spelled := SpellsLimit.signed nonempty decimal fits
      rwa [← signed, String.ofList_toList] at spelled
    case h_2 =>
      obtain ⟨nonempty, decimal, fits, rfl⟩ := limitOfDigits?_eq_some_iff.1 h
      have spelled := SpellsLimit.plain nonempty decimal fits
      rwa [String.ofList_toList] at spelled
  · intro h
    cases h with
    | @plain digits nonempty decimal fits =>
        rw [String.toList_ofList]
        split
        case h_1 digits => exact absurd (decimal '+' List.mem_cons_self) (by decide)
        case h_2 => exact limitOfDigits?_eq_some_iff.2 ⟨nonempty, decimal, fits, rfl⟩
    | @signed digits nonempty decimal fits =>
        rw [String.toList_ofList]
        exact limitOfDigits?_eq_some_iff.2 ⟨nonempty, decimal, fits, rfl⟩

-- ── Reading one argument ────────────

theorem after?_append (start value : String) : after? start (start ++ value) = some value :=
  after?_eq_some_iff.2 rfl

theorem after?_eq_none {start text : String} (h : ∀ value, text ≠ start ++ value) :
    after? start text = none :=
  Option.eq_none_iff_forall_ne_some.2 fun value found => h value (after?_eq_some_iff.1 found)

theorem isPositional_iff {text : String} :
    IsPositional text ↔ ¬ ("-".toList.isPrefixOf text.toList = true ∧ text ≠ "-") := by
  have dash : "-".toList.isPrefixOf text.toList = true ↔ text.toList.head? = some '-' := by
    cases text.toList with
    | nil => exact iff_of_false Bool.false_ne_true nofun
    | cons c rest =>
        show (('-' == c) && true) = true ↔ some c = some '-'
        rw [Bool.and_true, beq_iff_eq, Option.some.injEq, eq_comm]
  rw [IsPositional, dash, not_and_not_right]
  exact imp_iff_or_not.symm

/-- An argument that begins like an option with a value is read as one. -/
theorem ofString_eq_ofValue {start text : String} (h : (after? start text).isSome)
    (long : start = "--color=" ∨ start = "--error-limit=") : ofString text = ofValue text := by
  unfold ofString
  split
  all_goals first | rfl | (rcases long with rfl | rfl <;> exact absurd h (by decide))

theorem ofString_color (value : String) :
    ofString ("--color=" ++ value) =
      match ColorMode.ofText? value with
      | some mode => .ok (color mode)
      | none => .error (.invalidColor value) := by
  have begins := after?_append "--color=" value
  rw [ofString_eq_ofValue (Option.isSome_of_eq_some begins) (Or.inl rfl)]
  cases found : ColorMode.ofText? value with
  | none => simp only [ofValue, begins, found]
  | some mode => simp only [ofValue, begins, found]

theorem ofString_errorLimit (value : String) :
    ofString ("--error-limit=" ++ value) =
      match limitOfString? value with
      | some n => .ok (errorLimit n)
      | none => .error (.invalidErrorLimit value) := by
  have begins := after?_append "--error-limit=" value
  have noColor : after? "--color=" ("--error-limit=" ++ value) = none := by
    rw [after?, String.toList_append]
    rfl
  rw [ofString_eq_ofValue (Option.isSome_of_eq_some begins) (Or.inr rfl)]
  cases found : limitOfString? value with
  | none => simp only [ofValue, noColor, begins, found]
  | some n => simp only [ofValue, noColor, begins, found]

/-- An argument that is neither an option with a value nor spelled otherwise is a script, or
refused. -/
theorem ofValue_of_other {text : String} (noColor : ∀ value, text ≠ "--color=" ++ value)
    (noLimit : ∀ value, text ≠ "--error-limit=" ++ value) :
    ofValue text =
      if "-".toList.isPrefixOf text.toList ∧ text ≠ "-" then .error (.unknownOption text)
      else .ok (script text) := by
  rw [ofValue, after?_eq_none noColor, after?_eq_none noLimit]

-- ── What an argument is read as ─────

theorem ofText?_eq_none_iff {value : String} :
    ColorMode.ofText? value = none ↔ value ≠ "auto" ∧ value ≠ "always" ∧
      value ≠ "never" := by
  rw [ColorMode.ofText?, List.find?_eq_none]
  constructor
  · intro others
    refine ⟨?_, ?_, ?_⟩
    · rintro rfl
      exact others .auto (by decide) (by decide)
    · rintro rfl
      exact others .always (by decide) (by decide)
    · rintro rfl
      exact others .never (by decide) (by decide)
  · rintro ⟨noAuto, noAlways, noNever⟩ mode -
    rw [decide_eq_true_iff]
    cases mode with
    | auto => exact noAuto.symm
    | always => exact noAlways.symm
    | never => exact noNever.symm

theorem spells_color_of_ofText? {value : String} {mode : ColorMode}
    (h : ColorMode.ofText? value = some mode) : Spells ("--color=" ++ value) (color mode) := by
  have named : mode.text = value := by simpa using List.find?_some h
  subst named
  cases mode with
  | auto => exact Spells.autoColor
  | always => exact Spells.alwaysColor
  | never => exact Spells.neverColor

/-- What is read is spelled by the text, and a text that cannot be read is refused in these
words. -/
theorem ofString_cases (text : String) :
    (∃ a, ofString text = .ok a ∧ Spells text a) ∨
      ∃ e, ofString text = .error e ∧ RefusedWith text e.message := by
  by_cases isColor : ∃ value, text = "--color=" ++ value
  · obtain ⟨value, rfl⟩ := isColor
    rw [ofString_color]
    cases found : ColorMode.ofText? value with
    | some mode => exact Or.inl ⟨_, rfl, spells_color_of_ofText? found⟩
    | none =>
        obtain ⟨noAuto, noAlways, noNever⟩ := ofText?_eq_none_iff.1 found
        exact Or.inr ⟨_, rfl, RefusedWith.color noAuto noAlways noNever⟩
  by_cases isLimit : ∃ value, text = "--error-limit=" ++ value
  · obtain ⟨value, rfl⟩ := isLimit
    rw [ofString_errorLimit]
    cases found : limitOfString? value with
    | some n => exact Or.inl ⟨_, rfl, Spells.errorLimit (limitOfString?_eq_some_iff.1 found)⟩
    | none =>
        refine Or.inr ⟨_, rfl, RefusedWith.errorLimit ?_⟩
        intro n spelled
        rw [limitOfString?_eq_some_iff.2 spelled] at found
        exact nomatch found
  have noColor := not_exists.1 isColor
  have noLimit := not_exists.1 isLimit
  unfold ofString
  split
  case h_1 => exact Or.inl ⟨_, rfl, Spells.shortHelp⟩
  case h_2 => exact Or.inl ⟨_, rfl, Spells.longHelp⟩
  case h_3 => exact Or.inl ⟨_, rfl, Spells.shortVersion⟩
  case h_4 => exact Or.inl ⟨_, rfl, Spells.longVersion⟩
  case h_5 => exact Or.inl ⟨_, rfl, Spells.literals⟩
  case h_6 noShortHelp noLongHelp noShortVersion noLongVersion noLiterals =>
    rw [ofValue_of_other noColor noLimit]
    split
    case isFalse positional =>
      exact Or.inl ⟨_, rfl, Spells.script (isPositional_iff.2 positional)⟩
    case isTrue option =>
      refine Or.inr ⟨_, rfl, RefusedWith.unknown ?_ noColor noLimit⟩
      intro a spelled
      cases spelled with
      | shortHelp => exact noShortHelp rfl
      | longHelp => exact noLongHelp rfl
      | shortVersion => exact noShortVersion rfl
      | longVersion => exact noLongVersion rfl
      | literals => exact noLiterals rfl
      | autoColor => exact noColor "auto" rfl
      | alwaysColor => exact noColor "always" rfl
      | neverColor => exact noColor "never" rfl
      | errorLimit _ => exact noLimit _ rfl
      | script positional => exact isPositional_iff.1 positional option

/-- A text that begins with a dash and goes on is not positional. -/
theorem IsPositional.ne_append {text : String} (h : IsPositional text) {c : Char} {rest : List Char}
    (start value : String) (dash : start.toList = '-' :: c :: rest) : text ≠ start ++ value := by
  rintro rfl
  have whole : (start ++ value).toList = '-' :: c :: (rest ++ value.toList) := by
    rw [String.toList_append, dash]
    rfl
  rcases h with alone | other
  · rw [alone] at whole
    exact nomatch (List.cons.inj whole).2
  · rw [whole] at other
    exact other rfl

theorem ofString_of_spells {text : String} {a : Argument} (h : Spells text a) :
    ofString text = .ok a := by
  cases h with
  | errorLimit spelled => rw [ofString_errorLimit, limitOfString?_eq_some_iff.2 spelled]
  | script positional =>
      unfold ofString
      split
      case h_6 =>
        have noColor (value : String) := positional.ne_append "--color=" value rfl
        have noLimit (value : String) := positional.ne_append "--error-limit=" value rfl
        rw [ofValue_of_other noColor noLimit, if_neg (isPositional_iff.1 positional)]
      all_goals exact absurd positional (by unfold IsPositional; decide)
  | _ => rfl

/-- **One argument.** It is read as what its text spells. -/
theorem ofString_eq_ok_iff {text : String} {a : Argument} :
    ofString text = .ok a ↔ Spells text a := by
  refine ⟨?_, ofString_of_spells⟩
  intro read
  rcases ofString_cases text with ⟨b, accepted, spelled⟩ | ⟨e, refused, -⟩
  · obtain rfl := Except.ok.inj (accepted.symm.trans read)
    exact spelled
  · rw [refused] at read
    exact nomatch read

/-- An argument that cannot be read is refused in the words for its text. -/
theorem exists_error_iff {text words : String} :
    (∃ e, ofString text = .error e ∧ e.message = words) ↔ RefusedWith text words := by
  constructor
  · rintro ⟨e, refused, rfl⟩
    rcases ofString_cases text with ⟨a, read, -⟩ | ⟨e', refused', told⟩
    · rw [read] at refused
      exact nomatch refused
    · obtain rfl := Except.error.inj (refused'.symm.trans refused)
      exact told
  · intro told
    cases told with
    | color noAuto noAlways noNever =>
        rw [ofString_color, ofText?_eq_none_iff.2 ⟨noAuto, noAlways, noNever⟩]
        exact ⟨_, rfl, rfl⟩
    | @errorLimit value noLimit =>
        have noNumber : limitOfString? value = none :=
          Option.eq_none_iff_forall_ne_some.2 fun n found =>
            noLimit n (limitOfString?_eq_some_iff.1 found)
        rw [ofString_errorLimit, noNumber]
        exact ⟨_, rfl, rfl⟩
    | unknown noArgument noColor noLimit =>
        rcases ofString_cases text with ⟨a, -, spelled⟩ | ⟨e, refused, told⟩
        · exact absurd spelled (noArgument a)
        · refine ⟨e, refused, ?_⟩
          generalize e.message = words at told
          cases told with
          | color => exact absurd rfl (noColor _)
          | errorLimit => exact absurd rfl (noLimit _)
          | unknown => rfl

-- ── What arguments are about ────────

/-- What an argument is about. -/
inductive Family
  | request
  | literals
  | color
  | errorLimit
  | script
deriving DecidableEq

def family : Argument → Family
  | help | version => .request
  | literals => .literals
  | color _ => .color
  | errorLimit _ => .errorLimit
  | script _ => .script

def request? : Argument → Option Request
  | help => some .help
  | version => some .version
  | _ => none

def color? : Argument → Option ColorMode
  | color mode => some mode
  | _ => none

def errorLimit? : Argument → Option Nat
  | errorLimit n => some n
  | _ => none

def script? : Argument → Option String
  | script path => some path
  | _ => none

/-- An argument says something only about what it is about. -/
theorem family_of_told (a : Argument) :
    (a.request? ≠ none → a.family = .request) ∧ (a.color? ≠ none → a.family = .color) ∧
      (a.errorLimit? ≠ none → a.family = .errorLimit) ∧
      (a.script? ≠ none → a.family = .script) := by
  cases a <;> simp [request?, color?, errorLimit?, script?, family]

/-- The scripts that some arguments name. -/
def scripts (as : List Argument) : List String :=
  as.filterMap script?

theorem isPositional_iff_of_spells {text : String} {a : Argument} (h : Spells text a) :
    IsPositional text ↔ a.script? ≠ none := by
  cases h with
  | script positional => exact iff_of_true positional nofun
  | errorLimit spelled =>
      refine iff_of_false ?_ (absurd rfl)
      intro positional
      exact positional.ne_append "--error-limit=" _ rfl rfl
  | _ => exact iff_of_false (by unfold IsPositional; decide) (absurd rfl)

end Argument

/-- What a request makes a program do. -/
def Request.mode : Request → Mode
  | help => .help
  | version => .version

open Argument

/-- What arguments choose, whatever their order: the last request, or else the script that is named,
or else the prompt; the last colours and the last limit; and values if they are asked for at all. -/
def Config.ofArguments (as : List Argument) : Config where
  mode := ((as.filterMap request?).getLast?.map Request.mode).getD
    (((scripts as).head?.map Mode.file).getD .prompt)
  showLiterals := decide (.literals ∈ as)
  color := (as.filterMap color?).getLast?.getD .auto
  errorLimit := (as.filterMap errorLimit?).getLast?.getD 0

-- ── Taking arguments in order ───────

namespace Choices

/-- What was chosen after some arguments: what makes the mode is kept apart until the end. -/
def ofArguments (as : List Argument) : Choices where
  request := (as.filterMap request?).getLast?
  script := (scripts as).head?
  showLiterals := (Config.ofArguments as).showLiterals
  color := (Config.ofArguments as).color
  errorLimit := (Config.ofArguments as).errorLimit

theorem config_ofArguments (as : List Argument) :
    (ofArguments as).config = Config.ofArguments as := by
  have mode : (ofArguments as).mode = (Config.ofArguments as).mode := by
    unfold Choices.mode Config.ofArguments ofArguments
    dsimp only
    split
    all_goals simp_all [Request.mode]
  rw [config, mode]
  rfl

/-- One argument more comes last, and a script only if there is none. -/
theorem ofArguments_concat (as : List Argument) (a : Argument) :
    ofArguments (as ++ [a]) =
      ⟨a.request?.or (ofArguments as).request, (ofArguments as).script.or a.script?,
        decide (a = .literals) || (ofArguments as).showLiterals,
          a.color?.getD (ofArguments as).color,
        a.errorLimit?.getD (ofArguments as).errorLimit⟩ := by
  simp only [ofArguments, Config.ofArguments, scripts, List.filterMap_append, List.mem_append,
    List.mem_singleton, List.head?_append, List.getLast?_append]
  cases a <;> simp [script?, request?, color?, errorLimit?]

/-- **One argument more.** It is taken, unless it is a second script. -/
theorem add_ofArguments (as : List Argument) (a : Argument) :
    (ofArguments as).add a =
      if a.script? ≠ none ∧ scripts as ≠ [] then .error .secondScript
      else .ok (ofArguments (as ++ [a])) := by
  rw [ofArguments_concat]
  cases a with
  | script path =>
      have first : (ofArguments as).script = (scripts as).head? := rfl
      cases named : scripts as with
      | nil =>
          rw [named] at first
          rw [if_neg (fun both => both.2 rfl), add, first]
          rfl
      | cons earlier others =>
          rw [named] at first
          rw [if_pos ⟨nofun, nofun⟩, add, first]
          rfl
  | _ => simp [add, script?, request?, color?, errorLimit?]

/-- A text is read and taken exactly if it spells an argument that is no second script. -/
theorem read_ofArguments_eq_ok_iff {as : List Argument} {text : String} {c : Choices} :
    (ofArguments as).read text = .ok c ↔
      ∃ a, Spells text a ∧ (a.script? = none ∨ scripts as = []) ∧
        c = ofArguments (as ++ [a]) := by
  rw [read]
  split
  case h_1 a read =>
    rw [add_ofArguments]
    constructor
    · intro taken
      split at taken
      case isTrue => exact nomatch taken
      case isFalse free =>
        refine ⟨a, ofString_eq_ok_iff.1 read, ?_, (Except.ok.inj taken).symm⟩
        rwa [not_and_or, not_not, not_not] at free
    · rintro ⟨b, spelled, free, rfl⟩
      obtain rfl := Except.ok.inj (read.symm.trans (ofString_of_spells spelled))
      rw [if_neg (by rwa [not_and_or, not_not, not_not])]
  case h_2 e refused =>
    refine iff_of_false nofun ?_
    rintro ⟨a, spelled, -, -⟩
    rw [ofString_of_spells spelled] at refused
    exact nomatch refused

/-- A text is not taken exactly if it is refused by itself, or is a second script. -/
theorem exists_read_ofArguments_error_iff {as : List Argument} {text words : String} :
    (∃ e, (ofArguments as).read text = .error e ∧ e.message = words) ↔
      RefusedWith text words ∨
        words = "expected at most one script argument" ∧ IsPositional text ∧
          scripts as ≠ [] := by
  rw [← exists_error_iff, read]
  split
  case h_1 a read =>
    have spelled := ofString_eq_ok_iff.1 read
    rw [add_ofArguments, isPositional_iff_of_spells spelled, read]
    split
    case isTrue second =>
      constructor
      · rintro ⟨e, refused, rfl⟩
        obtain rfl := Except.error.inj refused
        exact Or.inr ⟨rfl, second⟩
      · rintro (⟨e, refused, -⟩ | ⟨rfl, -⟩)
        · exact nomatch refused
        · exact ⟨_, rfl, rfl⟩
    case isFalse free =>
      refine iff_of_false ?_ ?_
      · rintro ⟨e, refused, -⟩
        exact nomatch refused
      · rintro (⟨e, refused, -⟩ | ⟨-, second⟩)
        · exact nomatch refused
        · exact free second
  case h_2 e refused =>
    have alone : ¬ (words = "expected at most one script argument" ∧ IsPositional text ∧
        scripts as ≠ []) := by
      rintro ⟨-, positional, -⟩
      rw [ofString_of_spells (Spells.script positional)] at refused
      exact nomatch refused
    rw [refused, or_iff_left alone]
    simp only [Except.error.injEq]

/-- Among some arguments and one more is at most one script exactly if there is none before a
script. -/
theorem length_scripts_concat_le (as : List Argument) (few : (scripts as).length ≤ 1)
    (a : Argument) :
    (scripts (as ++ [a])).length ≤ 1 ↔ a.script? = none ∨ scripts as = [] := by
  rw [scripts, List.filterMap_append, List.length_append]
  cases named : a.script? with
  | none => simpa [named, scripts] using few
  | some path => simp [named, scripts]

/-- **Any arguments.** All of them are taken exactly if every text spells an argument and at most
one of them is a script. -/
theorem foldlM_read_eq_ok_iff {texts : List String} {before : List Argument}
    (few : (scripts before).length ≤ 1) {c : Choices} :
    texts.foldlM read (ofArguments before) = .ok c ↔
      ∃ as, List.Forall₂ Spells texts as ∧ (scripts (before ++ as)).length ≤ 1 ∧
        c = ofArguments (before ++ as) := by
  induction texts generalizing before with
  | nil =>
      constructor
      · intro taken
        obtain rfl := Except.ok.inj taken
        exact ⟨[], List.Forall₂.nil, by rwa [List.append_nil], by rw [List.append_nil]⟩
      · rintro ⟨as, spelled, -, rfl⟩
        cases spelled
        rw [List.append_nil]
        rfl
  | cons text texts ih =>
      rw [List.foldlM_cons]
      constructor
      · intro taken
        cases first : (ofArguments before).read text with
        | error e => rw [first] at taken; exact nomatch taken
        | ok next =>
            rw [first] at taken
            obtain ⟨a, spelled, free, rfl⟩ := read_ofArguments_eq_ok_iff.1 first
            have few' := (length_scripts_concat_le before few a).2 free
            obtain ⟨as, others, atMost, rfl⟩ := (ih few').1 taken
            rw [List.append_assoc] at atMost
            exact ⟨a :: as, List.Forall₂.cons spelled others, atMost, by
              rw [List.append_assoc]; rfl⟩
      · rintro ⟨as, spelled, atMost, chosen⟩
        cases spelled with
        | @cons _ a _ as spelled others =>
            rw [List.append_cons] at atMost chosen
            have few' : (scripts (before ++ [a])).length ≤ 1 := by
              rw [scripts, List.filterMap_append, List.length_append] at atMost
              exact Nat.le_trans (Nat.le_add_right ..) atMost
            have free := (length_scripts_concat_le before few a).1 few'
            rw [read_ofArguments_eq_ok_iff.2 ⟨a, spelled, free, rfl⟩]
            exact (ih few').2 ⟨as, others, atMost, chosen⟩

end Choices

/-- Taking things in order fails exactly at the first that fails after those before it were
taken. -/
theorem foldlM_eq_error_iff {σ α ε : Type} {f : σ → α → Except ε σ} {s : σ}
    {l : List α} {e : ε} :
    l.foldlM f s = .error e ↔
      ∃ before x after t, l = before ++ x :: after ∧ before.foldlM f s = .ok t ∧
        f t x = .error e := by
  constructor
  · intro failed
    induction l generalizing s with
    | nil => exact nomatch failed
    | cons x l ih =>
        rw [List.foldlM_cons] at failed
        cases first : f s x with
        | error cause =>
            rw [first] at failed
            obtain rfl := Except.error.inj failed
            exact ⟨[], x, l, s, rfl, rfl, first⟩
        | ok next =>
            rw [first] at failed
            obtain ⟨before, y, after, t, rfl, taken, last⟩ := ih failed
            refine ⟨x :: before, y, after, t, rfl, ?_, last⟩
            rw [List.foldlM_cons, first]
            exact taken
  · rintro ⟨before, x, after, t, rfl, taken, failed⟩
    rw [List.foldlM_append, taken]
    show (x :: after).foldlM f t = .error e
    rw [List.foldlM_cons, failed]
    rfl

-- ── Configurations ──────────────────

/-- Some texts have scripts among what they spell exactly if one of them is positional. -/
theorem Argument.scripts_ne_nil_iff {texts : List String} {as : List Argument}
    (h : List.Forall₂ Spells texts as) :
    scripts as ≠ [] ↔ ∃ text ∈ texts, IsPositional text := by
  induction h with
  | nil => simp [scripts]
  | @cons text a texts as spelled _ ih =>
      rw [List.exists_mem_cons_iff, isPositional_iff_of_spells spelled, ← ih]
      cases named : a.script? with
      | none => simp [scripts, named]
      | some path => simp [scripts, named]

namespace Config

theorem foldlM_read_eq_ok_iff {args : List String} {c : Choices} :
    args.foldlM Choices.read {} = .ok c ↔
      ∃ as, List.Forall₂ Spells args as ∧ (scripts as).length ≤ 1 ∧
        c = Choices.ofArguments as := by
  have atMost : (scripts []).length ≤ 1 := Nat.zero_le 1
  exact Choices.foldlM_read_eq_ok_iff atMost

/-- **Success.** Arguments are accepted exactly if each of them spells something and at most one of
them is a script; and then they choose what they choose in any order. -/
theorem ofArgs_eq_ok_iff {args : List String} {config : Config} :
    ofArgs args = .ok config ↔
      ∃ as, List.Forall₂ Spells args as ∧ (scripts as).length ≤ 1 ∧
        config = ofArguments as := by
  constructor
  · intro accepted
    cases taken : args.foldlM Choices.read {} with
    | error cause =>
        rw [ofArgs, taken] at accepted
        exact nomatch accepted
    | ok c =>
        rw [ofArgs, taken] at accepted
        obtain rfl := Except.ok.inj accepted
        obtain ⟨as, spelled, atMost, rfl⟩ := foldlM_read_eq_ok_iff.1 taken
        exact ⟨as, spelled, atMost, Choices.config_ofArguments as⟩
  · rintro ⟨as, spelled, atMost, rfl⟩
    rw [ofArgs, foldlM_read_eq_ok_iff.2 ⟨as, spelled, atMost, rfl⟩,
      ← Choices.config_ofArguments]

/-- **Failure.** Arguments are refused in the words for the first of them that is refused, by itself
or as a script after another one. -/
theorem exists_ofArgs_error_iff {args : List String} {words : String} :
    (∃ e, ofArgs args = .error e ∧ e.message = words) ↔
      ∃ before text after, args = before ++ text :: after ∧
        (∃ config, ofArgs before = .ok config) ∧
        (RefusedWith text words ∨
          words = "expected at most one script argument" ∧ IsPositional text ∧
            ∃ earlier ∈ before, IsPositional earlier) := by
  have stops {e : UsageError} :
      ofArgs args = .error e ↔ args.foldlM Choices.read {} = .error e := by
    rw [ofArgs]
    cases args.foldlM Choices.read {} with
    | ok c => exact iff_of_false nofun nofun
    | error cause => rw [Except.error.injEq, Except.error.injEq]
  constructor
  · rintro ⟨e, refused, rfl⟩
    obtain ⟨before, text, after, c, whole, taken, last⟩ :=
      foldlM_eq_error_iff.1 (stops.1 refused)
    obtain ⟨as, spelled, atMost, rfl⟩ := foldlM_read_eq_ok_iff.1 taken
    refine ⟨before, text, after, whole,
      ⟨_, ofArgs_eq_ok_iff.2 ⟨as, spelled, atMost, rfl⟩⟩, ?_⟩
    rw [← scripts_ne_nil_iff spelled]
    exact Choices.exists_read_ofArguments_error_iff.1 ⟨e, last, rfl⟩
  · rintro ⟨before, text, after, whole, ⟨config, accepted⟩, told⟩
    obtain ⟨as, spelled, atMost, rfl⟩ := ofArgs_eq_ok_iff.1 accepted
    rw [← scripts_ne_nil_iff spelled] at told
    obtain ⟨e, last, named⟩ := Choices.exists_read_ofArguments_error_iff.2 told
    have taken := foldlM_read_eq_ok_iff.2 ⟨as, spelled, atMost, rfl⟩
    exact ⟨e, stops.2 (foldlM_eq_error_iff.2 ⟨before, text, after, _, whole, taken, last⟩),
      named⟩

/-- Only arguments about one thing say something about it, so of two about different things one does
not. -/
theorem filterMap_swap {β : Type} {f : Argument → Option β} {one : Family}
    (about : ∀ a, f a ≠ none → a.family = one) {a b : Argument}
    (different : a.family ≠ b.family)
    (before after : List Argument) :
    (before ++ b :: a :: after).filterMap f = (before ++ a :: b :: after).filterMap f := by
  have silent : f a = none ∨ f b = none := by
    by_contra both
    rw [not_or] at both
    exact different ((about a both.1).trans (about b both.2).symm)
  rcases silent with silent | silent
  · simp [List.filterMap_cons, silent]
  · simp [List.filterMap_cons, silent]

theorem scripts_swap {a b : Argument} (different : a.family ≠ b.family)
    (before after : List Argument) :
    scripts (before ++ b :: a :: after) = scripts (before ++ a :: b :: after) :=
  filterMap_swap (fun a => (family_of_told a).2.2.2) different before after

/-- Arguments about different things choose the same in either order. -/
theorem ofArguments_swap {a b : Argument} (different : a.family ≠ b.family)
    (before after : List Argument) :
    ofArguments (before ++ b :: a :: after) = ofArguments (before ++ a :: b :: after) := by
  have requests := filterMap_swap (fun a => (family_of_told a).1) different before after
  have colors := filterMap_swap (fun a => (family_of_told a).2.1) different before after
  have limits := filterMap_swap (fun a => (family_of_told a).2.2.1) different before after
  have members : .literals ∈ before ++ b :: a :: after ↔
    .literals ∈ before ++ a :: b :: after :=
    ((List.Perm.swap a b after).append_left before).mem_iff
  simp only [ofArguments, requests, colors, limits, members, scripts_swap different]

/-- What is read of the arguments of a program. They are accepted exactly if each of them spells
something and at most one of them is a script, and then they choose what they choose in any order.
They are refused exactly in the words for the first of them that is refused after those before it,
whatever comes after it. And neighbours that are not about the same thing can change places. -/
structure Reads (args : List String) : Prop where
  accepts : ∀ config, ofArgs args = .ok config ↔
    ∃ as, List.Forall₂ Spells args as ∧ (scripts as).length ≤ 1 ∧ config = ofArguments as
  refuses : ∀ words, (∃ e, ofArgs args = .error e ∧ e.message = words) ↔
    ∃ before text after, args = before ++ text :: after ∧
      (∃ config, ofArgs before = .ok config) ∧
      (RefusedWith text words ∨
        words = "expected at most one script argument" ∧ IsPositional text ∧
          ∃ earlier ∈ before, IsPositional earlier)
  exchanges : ∀ before s t after, args = before ++ s :: t :: after →
    (∀ a b, Spells s a → Spells t b → a.family ≠ b.family) →
      ∀ config, ofArgs (before ++ t :: s :: after) = .ok config ↔ ofArgs args = .ok config

/-- Two neighbours change places among texts and among what these spell. -/
theorem exists_spelled_swap {before after : List String} {s t : String} {as : List Argument}
    (h : List.Forall₂ Spells (before ++ s :: t :: after) as) :
    ∃ xs a b ys, as = xs ++ a :: b :: ys ∧ Spells s a ∧ Spells t b ∧
      List.Forall₂ Spells (before ++ t :: s :: after) (xs ++ b :: a :: ys) := by
  induction before generalizing as with
  | nil =>
      cases h with
      | cons first h =>
          cases h with
          | cons second others =>
              exact ⟨[], _, _, _, rfl, first, second,
                List.Forall₂.cons second (List.Forall₂.cons first others)⟩
  | cons text before ih =>
      cases h with
      | cons spelled h =>
          obtain ⟨xs, a, b, ys, rfl, first, second, others⟩ := ih h
          exact ⟨_ :: xs, a, b, ys, rfl, first, second, List.Forall₂.cons spelled others⟩

/-- Neighbours that are not about the same thing can change places. -/
theorem ofArgs_swap {before after : List String} {s t : String}
    (different : ∀ a b, Spells s a → Spells t b → a.family ≠ b.family) {config : Config}
    (accepted : ofArgs (before ++ s :: t :: after) = .ok config) :
    ofArgs (before ++ t :: s :: after) = .ok config := by
  obtain ⟨as, spelled, atMost, rfl⟩ := ofArgs_eq_ok_iff.1 accepted
  obtain ⟨xs, a, b, ys, rfl, first, second, swapped⟩ := exists_spelled_swap spelled
  have apart := different a b first second
  refine ofArgs_eq_ok_iff.2 ⟨_, swapped, ?_, (ofArguments_swap apart xs ys).symm⟩
  rwa [scripts_swap apart]

end Config

/-- **Arguments.** The arguments of a program are read without regard to their order, up to the
first that is refused. -/
theorem arguments_decide (args : List String) : Config.Reads args where
  accepts _ := Config.ofArgs_eq_ok_iff
  refuses _ := Config.exists_ofArgs_error_iff
  exchanges := by
    rintro before s t after rfl different config
    exact ⟨Config.ofArgs_swap fun a b first second => (different b a second first).symm,
      Config.ofArgs_swap different⟩

end LoxScan
