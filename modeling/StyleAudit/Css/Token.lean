import StyleAudit.Css.Numeral
import StyleAudit.Css.Place

/-!
# Tokens and lexemes

A `Token` is what a stretch of a stylesheet means to the grammar: names with their
escapes resolved, numerals, punctuation.  A `Lexeme` is a token together with the
stretch itself and the place where it begins, so that a run of lexemes still holds
the exact source text it came from (`Lexeme.sourceOf`).

Three kinds of bracket nest.  A name with an opening parenthesis behind it is one
token, a function, and it opens a parenthesis like the bare one does.  A closing
bracket closes the innermost open bracket if that is of its kind, and is an ordinary
token otherwise: `Token.nesting` is that rule.
-/

namespace StyleAudit.Css

/-- The kinds of brackets. -/
inductive Bracket where
  | round
  | square
  | curly
  deriving DecidableEq, Repr

/-- What a stretch of a stylesheet means. -/
inductive Token where
  | ident (name : Text)
  | atKeyword (name : Text)
  /-- `#` with a name behind it that begins with a digit or a hyphen. -/
  | hash (name : Text)
  /-- `#` with a name behind it that could stand alone. -/
  | idHash (name : Text)
  | string (value : Text)
  /-- A string cut off by the end of its line. -/
  | badString (value : Text)
  | url (value : Text)
  /-- An address that breaks its grammar, as it is written. -/
  | badUrl (contents : Text)
  | function (name : Text)
  | delim (c : Char)
  | number (n : Numeral)
  | percentage (n : Numeral)
  | dimension (n : Numeral) (unit : Text)
  | space
  | comment
  | colon
  | semicolon
  | comma
  | includeMatch
  | dashMatch
  | prefixMatch
  | suffixMatch
  | substringMatch
  /-- `<!--` -/
  | commentOpen
  /-- `-->` -/
  | commentClose
  | opening (b : Bracket)
  | closing (b : Bracket)
  deriving DecidableEq, Repr

namespace Token

/-- Whether the token separates others and means nothing itself. -/
def isBlank : Token → Bool
  | space | comment => true
  | _ => false

/-- The bracket that the token opens. -/
def opens? : Token → Option Bracket
  | function _ => some .round
  | opening b => some b
  | _ => none

/-- The brackets that are open after the token, innermost first. -/
def nesting (t : Token) (stack : List Bracket) : List Bracket :=
  match t with
  | closing b => if stack.head? = some b then stack.tail else stack
  | t => t.opens?.toList ++ stack

end Token

/-- A token with the text that it was read from and the place where that text
begins. -/
structure Lexeme where
  token : Token
  text : Text
  start : Place
  deriving DecidableEq, Repr

namespace Lexeme

/-- The place right behind the lexeme. -/
def stop (l : Lexeme) : Place := l.start.past l.text

/-- Whether the lexeme is white space or a comment. -/
def isBlank (l : Lexeme) : Bool := l.token.isBlank

/-- The text that a run of lexemes was read from. -/
def sourceOf (ls : List Lexeme) : Text := ls.flatMap Lexeme.text

@[simp] theorem sourceOf_nil : sourceOf [] = [] := rfl

@[simp] theorem sourceOf_cons (l : Lexeme) (ls : List Lexeme) :
    sourceOf (l :: ls) = l.text ++ sourceOf ls := rfl

@[simp] theorem sourceOf_append (ls ms : List Lexeme) :
    sourceOf (ls ++ ms) = sourceOf ls ++ sourceOf ms := List.flatMap_append

/-- What is left of a run of lexemes has no more text than the run. -/
theorem length_sourceOf_le {ls ms : List Lexeme} (h : ls <:+ ms) :
    (sourceOf ls).length ≤ (sourceOf ms).length := by
  obtain ⟨u, rfl⟩ := h
  simp

end Lexeme
end StyleAudit.Css
