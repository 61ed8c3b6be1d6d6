import StyleAudit.Diagnostic
import StyleAudit.Extract.Unused
import StyleAudit.Extract.Validity
import StyleAudit.Files.Tree
import StyleAudit.Settings.Config

/-!
# What is found in one file

A file is first validated.  If that fails, the failure is the one thing found: its check gives
the severity, and if that check is off, nothing is found at all.  If it succeeds and there is a
page to compare with, each selector that the page does not use is found.

A finding shows the source line it is about.  Which line that is, is known from the failure,
with two exceptions: a semicolon missing in a block is searched for by the text of its line,
and an unused selector by its own text (`Text.locate?`), so it is the first line that contains
the text that is shown.
-/

namespace StyleAudit.Audit

/-- The bytes of a file that has to be read. -/
def readFile (tree : Node) (path : Path) : Except Failure (List UInt8) :=
  (tree.read path).mapError fun fault =>
    .analysis (String.ofList path.text) ("Failed to read file: " ++ fault.message)

/-! ## Failures as diagnostics -/

/-- What to do about the failures of a check. -/
def fixFor? : String → Option String
  | "unbalanced_braces" => some "Close every '\x7b' with a matching '\x7d'"
  | "missing_semicolon" => some "Terminate the declaration with ';'"
  | "decode_error" => some "Save the stylesheet as UTF-8"
  | _ => none

/-- The source line that a failure is about. -/
def lineOf? (source : Text) : Failure → Option Nat
  | .missingSemicolon line none => (Text.locate? line source).map Prod.fst
  | e => e.line?

/-- The column that a failure points at. -/
def columnOf? : Failure → Option Nat
  | .parse _ _ _ column => some column
  | _ => none

/-- The source line of the given number, trimmed, if there is one. -/
def lineText? (source : Text) (n : Nat) : Option String :=
  (source.sourceLines[n - 1]?).map fun line => String.ofList (Text.trim line)

/-- What is found in a file that is not valid, if the check is on. -/
def diagnosticOf? (c : Config) (now : Moment) (path : Path) (source : Text) (e : Failure) :
    Option Diagnostic :=
  (c.severityFor e.checkId).map fun severity =>
    { checkId := e.checkId
      severity := severity
      path := path
      line := lineOf? source e
      column := columnOf? e
      message := e.message
      context := (lineOf? source e).bind (lineText? source)
      fix := fixFor? e.checkId
      detectedAt := now }

/-! ## Unused selectors as diagnostics -/

/-- The finding that a page does not use a selector. -/
def unusedDiagnostic (now : Moment) (path : Path) (source : Text) (severity : Severity)
    (selector : Text) : Diagnostic :=
  let place := Text.locate? selector source
  { checkId := "unused_selector"
    severity := severity
    path := path
    line := place.map Prod.fst
    message := "Selector '" ++ String.ofList selector ++
      "' is not referenced by the HTML document"
    context := place.map fun p => String.ofList (Text.trim p.2)
    fix := some "Remove the rule or add the class/id to the markup"
    detectedAt := now }

/-! ## All that is found -/

/-- What is found in the bytes of a stylesheet. -/
def findings (c : Config) (now : Moment) (page : Option Text) (path : Path)
    (bytes : List UInt8) : Except Failure (List Diagnostic) :=
  match Extract.validate bytes with
  | .error e => .ok (diagnosticOf? c now path (Utf8.decodeLossy bytes) e).toList
  | .ok source =>
    match page, c.severityFor "unused_selector" with
    | some page, some severity =>
      (Extract.unusedSelectors bytes page).map
        (·.map (unusedDiagnostic now path source severity))
    | _, _ => .ok []

/-- What is found in a file, unless it cannot be read. -/
def checkFile (c : Config) (tree : Node) (now : Moment) (page : Option Text) (path : Path) :
    Except Failure (List Diagnostic) := do
  findings c now page path (← readFile tree path)

end StyleAudit.Audit
