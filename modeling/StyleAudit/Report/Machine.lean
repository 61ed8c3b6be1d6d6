import StyleAudit.JsonValue
import StyleAudit.Report.View

/-!
# Reports for programs

As JSON a report is one object: the diagnostics that are shown, a summary that counts all of
them, and the fingerprint of the configuration.  The members of every object are in the order
of their names.

For a workflow runner each diagnostic that is shown is a command on a line of its own, which
names the level, the file, the check and the place, with the message behind them as it is.
-/

namespace StyleAudit.Report

/-! ## JSON -/

/-- A diagnostic as a JSON object. -/
def diagnosticJson (d : Diagnostic) : JsonValue :=
  .object [
    ("check_id", .string d.checkId),
    ("column_number", .orNull .number d.column),
    ("context", .orNull .string d.context),
    ("detected_at", .string d.detectedAt.written),
    ("file_path", .string (String.ofList d.path.text)),
    ("line_number", .orNull .number d.line),
    ("message", .string d.message),
    ("severity", .string d.severity.name),
    ("suggested_fix", .orNull .string d.fix)]

/-- The summary of a report as a JSON object. -/
def summaryJson (r : Report) : JsonValue :=
  .object [
    ("diagnostics_by_severity", .object [
      ("error", .number r.counts.error),
      ("info", .number r.counts.info),
      ("warning", .number r.counts.warning)]),
    ("execution_time_ms", .number r.elapsed),
    ("total_files", .number r.files),
    ("validated_at", .string r.checkedAt.written)]

/-- The report as a JSON object. -/
def toJson (v : View) (r : Report) : JsonValue :=
  .object [
    ("config_fingerprint", .orNull .string r.fingerprint),
    ("diagnostics", .array ((v.shown r).map diagnosticJson)),
    ("summary", summaryJson r)]

/-! ## Workflow commands -/

/-- The level of a workflow command. -/
def workflowLevel : Severity → String
  | .error => "error"
  | .warning => "warning"
  | .info => "notice"

/-- The properties of a workflow command that tell the place. -/
def workflowPosition (d : Diagnostic) : String :=
  match d.line, d.column with
  | some line, some column => ",line=" ++ toString line ++ ",col=" ++ toString column
  | some line, none => ",line=" ++ toString line
  | none, _ => ""

/-- A diagnostic as a workflow command, with the line feed that ends it. -/
def workflowCommand (d : Diagnostic) : String :=
  "::" ++ workflowLevel d.severity ++ " file=" ++ String.ofList d.path.text ++ ",title=" ++
    d.checkId ++ workflowPosition d ++ "::" ++ d.message ++ "\n"

/-- The report as workflow commands. -/
def workflow (v : View) (r : Report) : String :=
  String.join ((v.shown r).map workflowCommand)

end StyleAudit.Report
