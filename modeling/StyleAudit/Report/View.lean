import StyleAudit.Report

/-!
# What of a report is shown

A report is shown in one of three formats.  All of them show the same diagnostics: those of at
least a given severity, cut off after a given number.  The counts they show are those of the
whole report.
-/

namespace StyleAudit.Report

/-- The formats a report can be shown in. -/
inductive Format where
  /-- For a person, in a terminal. -/
  | human
  /-- For a program, as JSON. -/
  | json
  /-- For a workflow runner, one command on a line for each diagnostic. -/
  | workflow
  deriving DecidableEq, Repr, Inhabited

namespace Format

/-- All formats with their names. -/
def all : List (String × Format) := [("human", human), ("json", json), ("github", workflow)]

/-- The format with exactly the given name. -/
def ofName? (name : String) : Option Format := all.lookup name

/-- The format with the given name, up to the case of ASCII letters. -/
def parse? (name : String) : Option Format := ofName? (name.map Char.toLower)

end Format

/-- How a report is shown. -/
structure View where
  /-- Whether a person's format is coloured. -/
  colors : Bool := true
  /-- Whether a person's format shows the source lines. -/
  showContext : Bool := true
  /-- Whether a person's format shows what to do. -/
  showFixes : Bool := true
  /-- The number of diagnostics shown, if it is limited. -/
  most : Option Nat := none
  /-- The mildest severity shown, if there is a limit. -/
  mildest : Option Severity := none
  deriving Inhabited

/-- Whether a diagnostic is severe enough to be shown. -/
def View.admits (v : View) (d : Diagnostic) : Bool :=
  match v.mildest with
  | none => true
  | some s => decide (s ≤ d.severity)

/-- The diagnostics of a report that are shown. -/
def View.shown (v : View) (r : Report) : List Diagnostic :=
  let admitted := r.diagnostics.filter v.admits
  match v.most with
  | none => admitted
  | some n => admitted.take n

end StyleAudit.Report
