import StyleAudit.Css.Comments
import StyleAudit.Extract.Sheet
import StyleAudit.Text.Lines

/-!
# Whether a stylesheet is valid

`validate` looks for the first thing wrong with a stylesheet, in four steps.

1. The tests that every question starts with (`readSheet`).
2. The blocks of the rules at the top level, one after the other: a block must have no issue.
   The failure points into the block; its line is counted from the start of the stylesheet.
3. Right after that, each block's lines: a line that looks like a declaration must end in a
   semicolon unless the block ends behind it.
4. The lines of the whole stylesheet, looked at in the same way.

Steps 3 and 4 read lines and not tokens, so they find a missing semicolon where the grammar
sees one long value, and they also object to valid text that is broken over lines in an
unusual way.  They do not look into comments.
-/

namespace StyleAudit.Extract

open Css

/-- Whether a trimmed line looks like a declaration that is not ended: it has a colon,
neither ends in a semicolon nor opens a block, and closes none. -/
def looksUnterminated (line : Text) : Bool :=
  line.contains ':' && !line.endsIn ';' && !line.endsIn '{' && !line.contains '}'

/-- The first line that looks like a declaration not ended and has a line behind it of which
`goesOn` holds, trimmed and with its number; the first line has number `n`. -/
def findUnterminated (goesOn : Text → Bool) (n : Nat) : List Text → Option (Nat × Text)
  | line :: next :: rest =>
    if looksUnterminated (Text.trim line) && goesOn next then some (n, Text.trim line)
    else findUnterminated goesOn (n + 1) (next :: rest)
  | _ => none

/-- Whether a block goes on in this line: it has a colon, or it does not begin with the
brace that ends a block. -/
def blockGoesOn (next : Text) : Bool := next.contains ':' || !(Text.trim next).startsWith '}'

/-- Whether a stylesheet goes on in this line: it is not blank and does not begin with the
brace that ends a block. -/
def sheetGoesOn (next : Text) : Bool :=
  !(Text.trim next).isEmpty && !(Text.trim next).startsWith '}'

/-- Fails with the first line of a block that lacks its semicolon. -/
def checkBlockLines (body : Text) : Except Failure Unit :=
  match findUnterminated blockGoesOn 1 (Text.splitLines (Text.trim (blankComments body))) with
  | some (_, line) => .error (.missingSemicolon line none)
  | none => .ok ()

/-- Fails with the first line of a stylesheet that lacks its semicolon, and tells its
number. -/
def checkSheetLines (t : Text) : Except Failure Unit :=
  match findUnterminated sheetGoesOn 1 (Text.splitLines (blankComments t)) with
  | some (n, line) => .error (.missingSemicolon line (some n))
  | none => .ok ()

/-- Fails if the block of the rule has an issue.  The line is counted in the text that the
rule was read from. -/
def checkItems (rule : QualifiedRule) : Except Failure Unit :=
  match Item.firstIssue? rule.items with
  | some issue =>
    .error (.parse (some "in declaration") issue.fault.message
      (rule.bodyLine + (issue.line - 1)) issue.column)
  | none => .ok ()

/-- Fails if something is wrong with the block of the rule.  Empty blocks are not looked
at. -/
def checkRule : Rule → Except Failure Unit
  | .qualified rule =>
    if rule.body.isEmpty then .ok ()
    else do
      checkItems rule
      checkBlockLines rule.body
  | _ => .ok ()

/-- The text of a stylesheet if nothing is wrong with it, or else the first failure. -/
def validateText (t : Text) : Except Failure Text := do
  let rules ← loadSheet t
  rules.forM checkRule
  checkSheetLines t
  return t

/-- The text of a stylesheet if nothing is wrong with it, from its bytes. -/
def validate (bytes : List UInt8) : Except Failure Text := do
  validateText (← decodeSheet bytes)

end StyleAudit.Extract
