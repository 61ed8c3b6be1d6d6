import StyleAudit.Text.Basic

/-!
# Wildcard patterns

A `Glob` is a pattern for whole texts.  `?` stands for any one character, `[...]` for one of
a class, `*` for any number of characters and `**` for any number of directories.  All of them
match slashes and leading points like other characters.

`**` has to be a whole component of the pattern.  It takes the slash behind it along, and what
follows it is tried at the place where it stands and behind every slash further on.

Matching tells two ways of failing apart.  A *mismatch* lets the nearest wildcard before try
further on.  If the text is used up with characters of the pattern to come, the whole attempt
is over, for trying further on leaves even less text (`Verdict.exhausted`).

A class that is not closed and a misplaced `**` are faults, told with the position in the
pattern.
-/

namespace StyleAudit.Glob

/-- What may stand in a class. -/
inductive Specifier where
  | single (c : Char)
  | range (first last : Char)
  deriving DecidableEq, Repr

/-- Whether the character is meant by the specifier. -/
def Specifier.admits (c : Char) : Specifier → Bool
  | single d => c == d
  | range first last => first ≤ c && c ≤ last

/-- The elements of a pattern. -/
inductive Token where
  | literal (c : Char)
  /-- `?` -/
  | any
  /-- `[...]` -/
  | within (specifiers : List Specifier)
  /-- `[!...]` -/
  | except (specifiers : List Specifier)
  /-- `*` -/
  | sequence
  /-- `**` -/
  | directories
  deriving DecidableEq, Repr

/-- A compiled pattern. -/
abbrev Pattern := List Token

/-! ## Faults -/

/-- What is wrong with a pattern. -/
inductive Complaint where
  /-- Three or more stars in a row. -/
  | tooManyStars
  /-- Two stars that are not a whole component. -/
  | partialComponent
  /-- A class that is empty or not closed. -/
  | badClass
  deriving DecidableEq, Repr

/-- What is wrong with a pattern, and the position in it, counted in characters. -/
structure Fault where
  position : Nat
  complaint : Complaint
  deriving DecidableEq, Repr

/-- What a fault says. -/
def Fault.message (f : Fault) : String :=
  "Pattern syntax error near position " ++ toString f.position ++ ": " ++
    match f.complaint with
    | .tooManyStars => "wildcards are either regular \x60*\x60 or recursive \x60**\x60"
    | .partialComponent => "recursive wildcards must form a single path component"
    | .badClass => "invalid range pattern"

/-! ## Compiling -/

/-- The specifiers in a class: `a-z` is a range, any other character stands for itself. -/
def specifiersOf : Text → List Specifier
  | a :: '-' :: b :: t => .range a b :: specifiersOf t
  | a :: t => .single a :: specifiersOf t
  | [] => []

/-- The inside of a class and what stands behind its bracket.  The first character is always
inside, even if it is a closing bracket. -/
def classAhead? : Text → Option (Text × Text)
  | c :: t =>
    let inside := t.takeWhile (· != ']')
    if inside.length < t.length then some (c :: inside, t.drop (inside.length + 1)) else none
  | [] => none

/-- The class behind an opening bracket, what stands behind it, and its length without the
opening bracket. -/
def bracketAhead? (t : Text) : Option (Token × Nat) :=
  match t with
  | '!' :: t => (classAhead? t).map fun r => (.except (specifiersOf r.1), r.1.length + 2)
  | t => (classAhead? t).map fun r => (.within (specifiersOf r.1), r.1.length + 1)

/-- Adds `**` behind the tokens so far, given in reverse; right behind another one it adds
nothing, except that the first two tokens may both be `**`. -/
def addDirectories : List Token → List Token
  | .directories :: t :: ts => .directories :: t :: ts
  | ts => .directories :: ts

/-- Compiles what is left of a pattern: its position, the character before it, and the tokens
so far in reverse. -/
def compileFrom (position : Nat) (before : Option Char) (tokens : List Token) :
    Text → Except Fault Pattern
  | [] => .ok tokens.reverse
  | c :: t =>
    if c = '*' then
      let more := (t.takeWhile (· == '*')).length
      if 1 < more then .error ⟨position + 2, .tooManyStars⟩
      else if more = 0 then compileFrom (position + 1) (some '*') (.sequence :: tokens) t
      else if before = none ∨ before = some '/' then
        match t.drop 1 with
        | [] => .ok (addDirectories tokens).reverse
        | d :: rest =>
          if d = '/' then
            compileFrom (position + 3) (some '/') (addDirectories tokens) (t.drop 2)
          else .error ⟨position + 2, .partialComponent⟩
      else .error ⟨position - 1, .partialComponent⟩
    else if c = '[' then
      match bracketAhead? t with
      | some (token, n) =>
        compileFrom (position + 1 + n) (some ']') (token :: tokens) (t.drop n)
      | none => .error ⟨position, .badClass⟩
    else
      compileFrom (position + 1) (some c) ((if c = '?' then .any else .literal c) :: tokens) t
termination_by t => t.length
decreasing_by all_goals simp only [List.length_cons, List.length_drop]; omega

/-- The pattern that a text writes. -/
def compile (t : Text) : Except Fault Pattern := compileFrom 0 none [] t

/-! ## Matching -/

/-- What an attempt to match comes to. -/
inductive Verdict where
  | matched
  | mismatch
  /-- The text is used up, and the pattern is not. -/
  | exhausted
  deriving DecidableEq, Repr

/-- Tries the rest of a pattern at every place of the text, from the left. -/
def anywhere (rest : Text → Verdict) : Text → Verdict
  | [] => rest []
  | c :: t =>
    match rest (c :: t) with
    | .mismatch => anywhere rest t
    | v => v

/-- Tries the rest of a pattern behind every slash, from the left, and at last at the end of
the text. -/
def behindSlashes (rest : Text → Verdict) : Text → Verdict
  | [] => rest []
  | c :: t =>
    if c = '/' then
      match rest t with
      | .mismatch => behindSlashes rest t
      | v => v
    else behindSlashes rest t

/-- Whether the character is meant by a token that stands for one character. -/
def Token.admits (c : Char) : Token → Bool
  | literal d => c == d
  | any => true
  | within specifiers => specifiers.any (Specifier.admits c)
  | except specifiers => !specifiers.any (Specifier.admits c)
  | sequence | directories => false

/-- Matches a pattern against a whole text. -/
def run : Pattern → Text → Verdict
  | [], [] => .matched
  | [], _ :: _ => .mismatch
  | .sequence :: ts, t => anywhere (run ts) t
  | .directories :: ts, t =>
    match run ts t with
    | .mismatch => behindSlashes (run ts) t
    | v => v
  | _ :: _, [] => .exhausted
  | token :: ts, c :: t => if token.admits c then run ts t else .mismatch

/-- Whether the pattern matches the whole text. -/
def isMatch (p : Pattern) (t : Text) : Bool := run p t == .matched

end StyleAudit.Glob
