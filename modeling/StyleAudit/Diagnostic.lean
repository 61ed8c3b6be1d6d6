import StyleAudit.Files.Path
import StyleAudit.Severity

/-!
# Diagnostics

A `Diagnostic` is one finding about one file.  Diagnostics are shown in the order of
`Diagnostic.cmp`: by file, then by line, those without a line first, then the worse before the
milder.
-/

namespace StyleAudit

/-- A moment in time, written as RFC 3339 has it. -/
structure Moment where
  written : String
  deriving DecidableEq, Repr, Inhabited

/-- A finding about a file. -/
structure Diagnostic where
  /-- The check that found it. -/
  checkId : String
  severity : Severity
  path : Path
  /-- The line it is on, counted from 1. -/
  line : Option Nat := none
  /-- The column where it begins, counted from 1. -/
  column : Option Nat := none
  message : String
  /-- The source line it is on. -/
  context : Option String := none
  /-- What to do about it. -/
  fix : Option String := none
  detectedAt : Moment
  deriving DecidableEq, Repr, Inhabited

namespace Diagnostic

/-- Whether the diagnostic makes a run of checks fail. -/
def isBlocking (d : Diagnostic) : Bool := d.severity.isBlocking

/-- The diagnostic on one line. -/
def display (d : Diagnostic) : String :=
  let location :=
    match d.line, d.column with
    | some line, some column => ":" ++ toString line ++ ":" ++ toString column
    | some line, none => ":" ++ toString line
    | none, _ => ""
  String.ofList d.path.text ++ location ++ " [" ++ d.severity.name ++ "] " ++ d.message

/-- The order in which diagnostics are shown. -/
def cmp (a b : Diagnostic) : Ordering :=
  ((a.path.cmp b.path).then (compare (a.line.getD 0) (b.line.getD 0))).then
    (compare b.severity.rank a.severity.rank)

end Diagnostic
end StyleAudit
