/-!
# Text that is read, and text that is written

Everything this program says about a stylesheet is said by recursion on its
characters: where a token ends, which line an error is on, what is left when
the comments are gone.  So text that is *read* is a list of characters, `Text`,
and the functions on it are the functions on lists.  Text that is *written*
for a person (messages, reports) is a `String`, since nothing is ever read back
out of it.

* `Text.foldCase`, `Text.sameName` --- names that differ only in the case of
  ASCII letters are the same name;
* `Text.occursIn` --- occurrence of one text inside another;
* `Text.trimStart`, `Text.trimEnd`, `Text.trim` --- cutting at both ends what a
  predicate accepts.
-/

namespace StyleAudit

/-- Text that was read, as the list of its characters. -/
abbrev Text := List Char

namespace Text

/-! ## Names up to ASCII case -/

/-- The text with `A` to `Z` written small; every other character stays. -/
def foldCase (t : Text) : Text := t.map Char.toLower

/-- Two names are the same when they differ at most in the case of ASCII
letters. -/
def sameName (a b : Text) : Bool := a.foldCase == b.foldCase

theorem sameName_iff {a b : Text} : a.sameName b = true ↔ a.foldCase = b.foldCase := by
  simp [sameName]

/-! ## Occurrence -/

/-- Whether `needle` stands somewhere in the text as a block of consecutive
characters.  The empty text stands everywhere. -/
def occursIn (needle : Text) : Text → Bool
  | [] => needle.isEmpty
  | c :: t => needle.isPrefixOf (c :: t) || occursIn needle t

theorem occursIn_iff {needle t : Text} : occursIn needle t = true ↔ needle <:+: t := by
  induction t with
  | nil => simp [occursIn]
  | cons c t ih => simp [occursIn, ih, List.infix_cons_iff]

/-! ## Cutting at the ends -/

/-- The text without the characters at its end that `p` accepts. -/
def dropEndWhile (p : Char → Bool) (t : Text) : Text := (t.reverse.dropWhile p).reverse

/-- The text without the characters at either end that `p` accepts. -/
def stripWhile (p : Char → Bool) (t : Text) : Text := dropEndWhile p (t.dropWhile p)

/-- Whether the text ends in the character `c`. -/
def endsIn (c : Char) (t : Text) : Bool := t.getLast? == some c

/-- Whether the text begins with the character `c`. -/
def startsWith (c : Char) (t : Text) : Bool := t.head? == some c

end Text
end StyleAudit
