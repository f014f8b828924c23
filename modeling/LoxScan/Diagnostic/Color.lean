/-!
# Colours

When messages are coloured, and how. The mode is a choice of the user; `auto` leaves it to whether
the messages go to a terminal. A coloured text is the text between the code of a style and the code
that ends every style, so leaving out the codes gives the plain text back.
-/

namespace LoxScan

/-- When to colour messages. -/
inductive ColorMode
  | auto
  | always
  | never
deriving DecidableEq

namespace ColorMode

/-- The name of a mode. -/
def text : ColorMode → String
  | auto => "auto"
  | always => "always"
  | never => "never"

/-- The mode with a given name. -/
def ofText? (s : String) : Option ColorMode :=
  [auto, always, never].find? (·.text = s)

/-- Whether a mode colours what goes to a terminal, or to something else. -/
def colors (mode : ColorMode) (terminal : Bool) : Bool :=
  match mode with
  | auto => terminal
  | always => true
  | never => false

/-- Settles `auto` for a given output. -/
def settle (mode : ColorMode) (terminal : Bool) : ColorMode :=
  match mode with
  | auto => if terminal then always else never
  | always => always
  | never => never

@[simp] theorem ofText?_text (mode : ColorMode) : ofText? mode.text = some mode := by
  cases mode <;> decide

/-- A settled mode colours as the mode did where it was settled, whatever it is asked for. -/
@[simp] theorem colors_settle (mode : ColorMode) (terminal other : Bool) :
    (mode.settle terminal).colors other = mode.colors terminal := by
  cases mode <;> cases terminal <;> rfl

end ColorMode

/-- The two styles of a message: what locates it, and the word that says it is an error. -/
inductive Style
  | bold
  | boldRed
deriving DecidableEq

namespace Style

/-- The code that begins a style. -/
def code : Style → String
  | bold => "\x1b[1m"
  | boldRed => "\x1b[1;31m"

/-- The code that ends every style. -/
def reset : String :=
  "\x1b[0m"

/-- A text in a style, or plain. -/
def paint (style : Style) (colored : Bool) (text : String) : String :=
  if colored then style.code ++ text ++ reset else text

@[simp] theorem paint_false (style : Style) (text : String) : style.paint false text = text :=
  rfl

end Style

end LoxScan
