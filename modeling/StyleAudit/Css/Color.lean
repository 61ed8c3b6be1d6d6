import StyleAudit.Css.Lexer
import StyleAudit.Text.Blank
import StyleAudit.Text.DecimalDigit

/-!
# Values that hold a colour

A value holds a colour if it *is* one of a few colour names, or if somewhere in it stands a
colour written with `#` or as one of the functions `rgb`, `rgba`, `hsl` and `hsla`.  The test
looks at the text of the value, not at its tokens, and names and functions are written small.

A *pattern* here is a function from a text to what is left behind the part it matches at the
front, if it matches.  Of several alternatives the first that matches is taken (`firstOf`).
-/

namespace StyleAudit.Css

/-- The names that count as colours on any property. -/
def namedColors : List Text :=
  ["black", "white", "red", "green", "blue", "yellow", "purple", "orange", "brown", "gray",
    "transparent"].map String.toList

/-- The properties whose value is a colour. -/
def colorProperties : List Text :=
  ["color", "background-color", "border-color", "border-top-color", "border-right-color",
    "border-bottom-color", "border-left-color", "outline-color", "text-decoration-color",
    "box-shadow", "text-shadow"].map String.toList

/-! ## Patterns -/

/-- What can be matched at the front of a text, with what is left behind it. -/
abbrev Pattern := Text → Option Text

namespace Pattern

/-- Exactly the given text. -/
def literal (t : Text) : Pattern := fun s =>
  if t.isPrefixOf s then some (s.drop t.length) else none

/-- Any number of blanks. -/
def blanks : Pattern := fun s => some (s.dropWhile isBlank)

/-- One or more characters that `p` accepts. -/
def some1 (p : Char → Bool) : Pattern := fun s =>
  match s with
  | c :: r => if p c then some (r.dropWhile p) else none
  | [] => none

/-- One pattern behind the other. -/
def chain : List Pattern → Pattern
  | [] => some
  | p :: ps => fun s => (p s).bind (chain ps)

/-- The first of the patterns that matches. -/
def firstOf (ps : List Pattern) : Pattern := fun s => ps.findSome? (· s)

/-- Whether the pattern matches anywhere in the text. -/
def occursIn (p : Pattern) : Text → Bool
  | [] => (p []).isSome
  | c :: t => (p (c :: t)).isSome || occursIn p t

/-- An argument with blanks around it. -/
def argument (p : Pattern) : Pattern := chain [blanks, p, blanks]

/-- A function with the given arguments, separated by commas. -/
def call (name : String) (arguments : List Pattern) : Pattern :=
  chain [literal name.toList, literal ['('],
    chain ((arguments.map argument).intersperse (literal [','])), literal [')']]

end Pattern

/-! ## Colours -/

open Pattern

/-- Whole numbers, in the digits of any script. -/
def wholeNumber : Pattern := some1 isDecimalDigit

/-- A whole number of percent. -/
def percent : Pattern := chain [wholeNumber, literal ['%']]

/-- The opacity: digits and points in any order. -/
def opacity : Pattern := some1 fun c => c.isDigit || c == '.'

/-- One hexadecimal digit. -/
def hexDigit : Pattern
  | c :: r => if isHexDigit c then some r else none
  | [] => none

/-- The given number of hexadecimal digits. -/
def hexDigits (n : Nat) : Pattern := chain (List.replicate n hexDigit)

/-- A `#` with three, six or eight hexadecimal digits behind it. -/
def hexColor : Pattern := chain [literal ['#'], firstOf ([3, 6, 8].map hexDigits)]

/-- The ways to write a colour that count wherever they stand. -/
def colorPatterns : List Pattern :=
  [hexColor,
    call "rgb" [wholeNumber, wholeNumber, wholeNumber],
    call "rgba" [wholeNumber, wholeNumber, wholeNumber, opacity],
    call "hsl" [wholeNumber, percent, percent],
    call "hsla" [wholeNumber, percent, percent, opacity]]

/-- Whether the value holds a colour. -/
def holdsColor (value : Text) : Bool :=
  colorPatterns.any (occursIn · value) || namedColors.contains value

/-- Whether a declaration bears a colour: by its property, or by its value. -/
def bearsColor (name value : Text) : Bool :=
  colorProperties.any name.sameName || holdsColor value

end StyleAudit.Css
