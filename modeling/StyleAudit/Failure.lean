import StyleAudit.Css.Describe
import StyleAudit.Text.Utf8

/-!
# Failures

A question about a stylesheet, a configuration or a set of files is answered or fails, and
a `Failure` says why.  The three failures of the stylesheet's syntax point at a place;
a failure inside the block of an at-rule is wrapped once for each such block around it.

Everything else is read off the cause: the text of the message (`Failure.message`), the check
that it belongs to (`Failure.checkId`), the line (`Failure.line?`).
-/

namespace StyleAudit

/-- Why something failed. -/
inductive Failure where
  /-- The text has more braces of one kind than of the other. -/
  | unbalancedBraces (opening closing : Nat)
  /-- A rule or declaration cannot be read. -/
  | parse (context : Option String) (message : String) (line column : Nat)
  /-- A failure inside the block of an at-rule. -/
  | nested (context : String) (source : Failure)
  /-- A line that looks like a declaration without its semicolon. -/
  | missingSemicolon (line : Text) (number : Option Nat)
  /-- The stylesheet is not UTF-8. -/
  | decode (fault : Utf8.Fault)
  /-- A file cannot be read or written. -/
  | io (message : String)
  /-- The configuration cannot be used. -/
  | configuration (message : String)
  /-- A path pattern cannot be used. -/
  | pattern (message : String)
  /-- A file could not be checked. -/
  | analysis (file message : String)
  deriving DecidableEq, Repr, Inhabited

namespace Failure

/-- What the failure says. -/
def message : Failure → String
  | unbalancedBraces opening closing =>
    "CSS syntax error: Unbalanced braces (" ++ toString opening ++ " '\x7b' vs " ++
      toString closing ++ " '\x7d')"
  | parse context message _ _ =>
    "CSS parse error" ++ (context.map (" " ++ ·)).getD "" ++ ": " ++ message
  | nested context source => "Error parsing " ++ context ++ " content: " ++ source.message
  | missingSemicolon line number =>
    "CSS syntax error: Missing semicolon" ++
      (number.map fun n => " at line " ++ toString n).getD "" ++
      " after '" ++ String.ofList line ++ "'"
  | decode fault => "Stylesheet is not valid UTF-8: " ++ fault.message
  | io message => "IO error: " ++ message
  | configuration message => "Configuration error: " ++ message
  | pattern message => "Pattern error: " ++ message
  | analysis file message => "Analysis error in " ++ file ++ ": " ++ message

/-- The failure that an issue in a list of rules or items is. -/
def ofIssue (issue : Css.Issue) : Failure :=
  .parse none issue.fault.message issue.line issue.column

/-- A parse failure with the given context; any other failure as it is. -/
def inContext (context : String) : Failure → Failure
  | parse _ message line column => .parse (some context) message line column
  | other => other

/-- Whether the failure shows in the syntax itself rather than in how it is laid out. -/
def isSyntaxError : Failure → Bool
  | unbalancedBraces .. | parse .. => true
  | nested _ source => source.isSyntaxError
  | _ => false

/-- The check that the failure belongs to. -/
def checkId : Failure → String
  | unbalancedBraces .. => "unbalanced_braces"
  | parse .. => "parse_error"
  | nested _ source => source.checkId
  | missingSemicolon .. => "missing_semicolon"
  | decode .. => "decode_error"
  | io .. | configuration .. | pattern .. | analysis .. => "internal"

/-- The line the failure points at, in 32 bits. -/
def line? : Failure → Option Nat
  | parse _ _ line _ => some line
  | nested _ source => source.line?
  | missingSemicolon _ number => number.map (· % 2 ^ 32)
  | _ => none

/-- The parse failure at the bottom of the wrapping, by its line and column. -/
def position? : Failure → Option (Nat × Nat)
  | parse _ _ line column => some (line, column)
  | nested _ source => source.position?
  | _ => none

end Failure
end StyleAudit
