import Std.Data.TreeMap
import StyleAudit.Decimal.Dyadic
import StyleAudit.Report.View

/-!
# Reports for a person

Diagnostics are grouped by file, the files in the order of their paths and each under the
spelling that occurs first.  A group keeps the order of the report.  A summary stands at the
end; it counts everything in the report, shown or not.
-/

namespace StyleAudit.Report

/-- A text in the terminal colour with the given code. -/
def View.paint (v : View) (code text : String) : String :=
  if v.colors then "\x1b[" ++ code ++ "m" ++ text ++ "\x1b[0m" else text

/-- The colour code of a severity. -/
def severityColor : Severity → String
  | .error => "31"
  | .warning => "33"
  | .info => "36"

/-! ## Groups -/

/-- The diagnostics about one file, under the path as it was given first. -/
structure FileGroup where
  path : Path
  diagnostics : List Diagnostic
  deriving Inhabited

/-- Files a diagnostic with those about the same file. -/
def addToGroup (groups : Std.TreeMap (List Path.Part) FileGroup) (d : Diagnostic) :
    Std.TreeMap (List Path.Part) FileGroup :=
  groups.alter d.path.parts fun
    | none => some ⟨d.path, [d]⟩
    | some g => some { g with diagnostics := g.diagnostics ++ [d] }

/-- The diagnostics grouped by file, the files in the order of their paths. -/
def groupByFile (ds : List Diagnostic) : List FileGroup := (ds.foldl addToGroup ∅).values

/-! ## Parts of the text -/

/-- The place of a diagnostic within its file. -/
def positionText (d : Diagnostic) : String :=
  match d.line, d.column with
  | some line, some column => toString line ++ ":" ++ toString column
  | some line, none => toString line
  | none, _ => "?"

/-- A line below a diagnostic, if there is something to show there. -/
def detailLine (v : View) (wanted : Bool) (code mark : String) : Option String → String
  | some text => if wanted then "    " ++ v.paint code (mark ++ " " ++ text) ++ "\n" else ""
  | none => ""

/-- One diagnostic with its source line and its fix. -/
def diagnosticText (v : View) (d : Diagnostic) : String :=
  "  " ++ v.paint "2" (positionText d ++ ":" ++ d.checkId) ++ " [" ++
    v.paint (severityColor d.severity) d.severity.name ++ "] " ++ d.message ++ "\n" ++
    detailLine v v.showContext "2" "│" d.context ++
    detailLine v v.showFixes "32" "💡" d.fix ++ "\n"

/-- One file with its diagnostics. -/
def groupText (v : View) (g : FileGroup) : String :=
  "📁 " ++ String.ofList g.path.text ++ "\n" ++
    String.join (g.diagnostics.map (diagnosticText v))

/-- Milliseconds in seconds, to one decimal place.  The quotient is taken in double
precision, and what that number is exactly is rounded, halves to even. -/
def secondsText (milliseconds : Nat) : String :=
  let tenths := (Decimal.Dyadic.ofDouble ((UInt64.ofNat milliseconds).toFloat / 1000.0)).tenths
  toString (tenths / 10) ++ "." ++ toString (tenths % 10)

/-- A number of things, in the plural unless it is one. -/
def countText (n : Nat) (thing : String) : String :=
  toString n ++ " " ++ thing ++ if n = 1 then "" else "s"

/-- What was found, by severity; severities without a diagnostic are left out. -/
def countsText (v : View) (c : Counts) : String :=
  if c.total = 0 then v.paint "32" "0 problems"
  else
    ", ".intercalate
      ((if 0 < c.error then [v.paint "31" (countText c.error "error")] else []) ++
        (if 0 < c.warning then [v.paint "33" (countText c.warning "warning")] else []) ++
        (if 0 < c.info then [v.paint "36" (toString c.info ++ " info")] else []))

/-- The line at the end. -/
def summaryText (v : View) (r : Report) : String :=
  "📊 " ++ v.paint "1" "Summary:" ++ " " ++ countsText v r.counts ++ " in " ++
    toString r.files ++ " files (" ++ secondsText r.elapsed ++ "s)\n"

/-- The line at the start. -/
def bannerText (v : View) (r : Report) : String :=
  if (v.shown r).isEmpty then "✅ " ++ v.paint "32" "No stylesheet problems found" ++ "\n"
  else
    (if r.hasErrors then "❌ " ++ v.paint "31" "Stylesheet Problems Found"
      else "⚠️ " ++ v.paint "33" "Stylesheet Problems Found") ++ "\n\n"

/-- The report for a person. -/
def human (v : View) (r : Report) : String :=
  bannerText v r ++ String.join ((groupByFile (v.shown r)).map (groupText v)) ++ summaryText v r

end StyleAudit.Report
