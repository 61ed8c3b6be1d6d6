import StyleAudit.Audit.Run
import StyleAudit.CommandLine.Invocation
import StyleAudit.Extract.Json
import StyleAudit.Extract.Property
import StyleAudit.Report.Render
import StyleAudit.Settings.Load

/-!
# What the program answers

An `Answer` is what a run of the program shows and the code it ends with: zero if all is well,
one if something is wrong with what it was asked about or it cannot be answered, and two if
the words of the command line are not understood.

Everything a run depends on is given as a value: the words, the files and the clock.
-/

namespace StyleAudit.CommandLine

/-- What a run shows and the code it ends with. -/
structure Answer where
  exitCode : Nat
  /-- What is written to the standard output. -/
  output : String := ""
  /-- What is written to the standard error output. -/
  complaint : String := ""
  deriving DecidableEq, Repr

/-- What the clock says. -/
structure Clock where
  now : Moment
  /-- The time that the run has taken, in milliseconds. -/
  elapsed : Nat := 0

/-- The text with a line feed behind it. -/
def line (s : String) : String := s ++ "\n"

/-- The texts as lines. -/
def lines (ss : List String) : String := String.join (ss.map line)

/-- The answer that something cannot be answered. -/
def Answer.ofFailure (e : Failure) : Answer :=
  { exitCode := 1, complaint := line ("Error: " ++ e.message) }

/-! ## Settings -/

/-- The configuration of a run: the one that is asked for, or else one found beside the files,
or else the standard one. -/
def configFor (tree : Node) (asked : Option Path) : Except Failure Config :=
  match asked <|> Config.discover? tree ⟨['.']⟩ with
  | some path => Config.loadFile tree path
  | none => .ok .standard

/-! ## Commands -/

/-- Checks files and shows the report. -/
def answerCheck (tree : Node) (clock : Clock) (i : Invocation) (r : CheckRequest) :
    Except Failure Answer := do
  let config ← configFor tree i.config
  let page ← r.page.mapM (Audit.readFile tree)
  let auditor ← Auditor.create config
  let paths := if r.paths.isEmpty then [⟨['.']⟩] else r.paths
  let options : Audit.Options :=
    { parallel := r.parallel
      failFast := r.failFast
      exclude := r.exclude
      ignoreFiles := r.ignoreFiles
      page := page.map Utf8.decodeLossy }
  let report ← auditor.checkPaths tree clock.now options paths
  let view : Report.View := { colors := i.colors, most := r.most, mildest := r.mildest }
  return {
    exitCode := if report.hasErrors then 1 else 0
    output := line ({ report with elapsed := clock.elapsed }.render view r.format) }

/-- Tells whether a stylesheet is valid. -/
def answerValidate (tree : Node) (file : Path) : Except Failure Answer := do
  match Extract.validate (← Audit.readFile tree file) with
  | .ok _ => return { exitCode := 0, output := line "valid" }
  | .error e => return { exitCode := 1, output := line e.message }

/-- The answer to a question about a stylesheet, as JSON.  A page that it is compared with is
read first. -/
def extract (tree : Node) (file : Path) : Question → Except Failure JsonValue
  | .colors => do
    let found ← Extract.colors (← Audit.readFile tree file)
    return Extract.tableJson (Extract.listJson Extract.textJson) found
  | .media => do
    let found ← Extract.mediaQueries (← Audit.readFile tree file)
    return Extract.tableJson (Extract.listJson Extract.mediaRuleJson) found
  | .animations => do
    let found ← Extract.animations (← Audit.readFile tree file)
    return Extract.tableJson Extract.animationJson found
  | .fonts => do
    let found ← Extract.fonts (← Audit.readFile tree file)
    return Extract.tableJson (Extract.listJson Extract.fontJson) found
  | .property name => do
    let found ← Extract.property (← Audit.readFile tree file) name
    return Extract.tableJson Extract.textJson found
  | .unused page => do
    let html := Utf8.decodeLossy (← Audit.readFile tree page)
    let found ← Extract.unusedSelectors (← Audit.readFile tree file) html
    return Extract.listJson Extract.textJson found

/-- Shows the answer to a question about a stylesheet. -/
def answerExtract (tree : Node) (question : Question) (file : Path) : Except Failure Answer := do
  return { exitCode := 0, output := line (← extract tree file question).pretty }

/-- Tells whether a configuration can be used. -/
def answerValidateConfig (tree : Node) (file : Path) : Answer :=
  let banner := line ("Validating configuration: " ++ String.ofList file.text)
  match Config.loadFile tree file with
  | .ok c =>
    { exitCode := 0
      output := banner ++ lines [
        "✅ Configuration is valid",
        "📊 Configuration summary:",
        "  Checks: " ++ toString c.checks.size ++ " total, " ++
          toString c.enabledChecks.length ++ " enabled",
        "  Path patterns: " ++ toString c.paths.patterns.length,
        "  Extensions: " ++ ", ".intercalate (c.paths.extensions.map String.ofList)] }
  | .error e =>
    { exitCode := 1
      output := banner
      complaint := line ("❌ Configuration validation failed: " ++ e.message) }

/-- Describes a check of a configuration. -/
def describeCheck (c : Config) (id : Text) : Answer :=
  match c.checks[id]? with
  | some rule =>
    { exitCode := 0
      output := lines [
        "📖 Check: " ++ String.ofList id,
        "⚠️ Severity: " ++ rule.severity.name,
        "✅ Enabled: " ++ if rule.enabled then "true" else "false",
        "",
        "📝 Description:",
        "   " ++ String.ofList rule.description] }
  | none =>
    { exitCode := 1
      output := lines ("" :: "Available checks:" ::
        c.checks.keys.map fun id => "  - " ++ String.ofList id)
      complaint := line ("❌ Check '" ++ String.ofList id ++ "' not found") }

/-- Lists the checks of a configuration. -/
def listChecks (c : Config) (enabledOnly : Bool) : Answer :=
  let listed := if enabledOnly then c.enabledChecks else c.checks.toList
  { exitCode := 0
    output := lines ("📋 Available Checks" :: "" :: listed.map fun (id, rule) =>
      "  " ++ (if rule.enabled then "✅" else "❌") ++ "🔍 " ++ String.ofList id ++ " [" ++
        rule.severity.name ++ "] - " ++ String.ofList rule.description) }

/-- Does what the program is asked to do. -/
def Invocation.answer? (i : Invocation) (tree : Node) (clock : Clock) : Except Failure Answer :=
  match i.command with
  | .check request => answerCheck tree clock i request
  | .validate file => answerValidate tree file
  | .extract question file => answerExtract tree question file
  | .validateConfig file =>
    return answerValidateConfig tree
      ((file <|> i.config).getD ⟨"css_inspector.yaml".toList⟩)
  | .explain id => return describeCheck (← configFor tree i.config) id
  | .checks enabledOnly => return listChecks (← configFor tree i.config) enabledOnly

/-! ## The program -/

/-- The name and version of the program. -/
def versionText : String := "css-inspector 0.1.0"

/-- How the program is used. -/
def usageText : String :=
  "Usage: css-inspector [OPTIONS] <COMMAND>\n\nCommands: " ++
    ", ".intercalate (programGrammar.commands.map Prod.fst)

/-- What the program answers to the words of a command line. -/
def answer (tree : Node) (clock : Clock) (words : List Text) : Answer :=
  match Invocation.ofWords words with
  | .error .misuse => { exitCode := 2, complaint := line usageText }
  | .error .help => { exitCode := 0, output := line usageText }
  | .error .version => { exitCode := 0, output := line versionText }
  | .ok i =>
    match i.answer? tree clock with
    | .ok a => a
    | .error e => .ofFailure e

end StyleAudit.CommandLine
