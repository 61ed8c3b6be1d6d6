import StyleAudit.Failure
import StyleAudit.Files.Glob
import StyleAudit.Severity
import StyleAudit.Table

/-!
# Configurations

A `Config` says which files are looked at and what each check is worth.  A check that the
configuration does not mention has its standard settings; one that it turns off reports
nothing.

`Config.validate` is passed by every configuration that is used.  It looks at the version, the
extensions, the names of the checks and the path patterns, in this order.  Patterns are tried
as wildcard patterns without any `!` in front and without slashes at either end, so it can
pass patterns that a path filter then refuses.

A configuration can also be built from the standard one, change by change (`Config.build`).
-/

namespace StyleAudit

/-- The settings of one check. -/
structure CheckRule where
  /-- What the check looks for. -/
  description : Text
  /-- The severity of what it finds. -/
  severity : Severity
  /-- Whether the check is on. -/
  enabled : Bool := true
  deriving DecidableEq, Repr

/-- Which files are looked at. -/
structure PathSettings where
  patterns : List Text
  /-- The name of ignore files; none, or an empty name, if they are not read. -/
  ignoreFile : Option Text
  /-- The extensions of stylesheets. -/
  extensions : List Text
  deriving DecidableEq, Repr

/-- The settings of a run. -/
structure Config where
  /-- The version of the settings format. -/
  version : Text
  paths : PathSettings
  /-- The settings of the checks under their names. -/
  checks : Table CheckRule

namespace Config

/-! ## Standard settings -/

/-- The names of all checks. -/
def checkIds : List String :=
  ["unbalanced_braces", "parse_error", "missing_semicolon", "decode_error", "unused_selector"]

/-- The standard settings of all checks. -/
def standardChecks : Table CheckRule :=
  [("unbalanced_braces", "Number of '\x7b' differs from number of '\x7d'", Severity.error),
    ("parse_error", "The CSS parser rejected a rule or declaration", .error),
    ("missing_semicolon", "A declaration line appears to lack its terminating ';'", .error),
    ("decode_error", "The file is not valid UTF-8", .error),
    ("unused_selector", "A class or id selector never appears in the configured HTML document",
      .info)].foldl
    (fun table (id, description, severity) =>
      table.insert id.toList ⟨description.toList, severity, true⟩)
    ∅

/-- The standard extensions of stylesheets. -/
def standardExtensions : List Text := ["css".toList]

/-- The standard configuration. -/
def standard : Config where
  version := "1.0".toList
  paths :=
    { patterns := ["**/node_modules/", "**/.git/", "**/*.min.css"].map String.toList
      ignoreFile := some ".cssignore".toList
      extensions := standardExtensions }
  checks := standardChecks

/-! ## Validation -/

/-- The part of a path pattern that has to be a wildcard pattern. -/
def patternCore (pattern : Text) : Text :=
  Text.stripWhile (· == '/') (pattern.dropWhile (· == '!'))

/-- Fails unless the path pattern can be used. -/
def checkPattern (pattern : Text) : Except Failure Unit :=
  match Glob.compile (patternCore pattern) with
  | .ok _ => .ok ()
  | .error fault =>
    .error (.configuration
      ("Invalid path pattern '" ++ String.ofList pattern ++ "': " ++ fault.message))

/-- Fails unless there is a check of the given name. -/
def checkKnown (id : Text) : Except Failure Unit :=
  if checkIds.contains (String.ofList id) then .ok ()
  else
    .error (.configuration ("Unknown check '" ++ String.ofList id ++ "'. Known checks: " ++
      ", ".intercalate checkIds))

/-- Fails unless the configuration can be used. -/
def validate (c : Config) : Except Failure Unit := do
  if c.version ≠ "1.0".toList then
    throw (.configuration ("Unsupported configuration version: " ++ String.ofList c.version ++
      ". Supported versions: 1.0"))
  if c.paths.extensions.isEmpty then
    throw (.configuration "At least one stylesheet extension is required")
  c.checks.keys.forM checkKnown
  c.paths.patterns.forM checkPattern

/-! ## Checks -/

/-- The severity of what a check finds; nothing if the check is off. -/
def severityFor (c : Config) (id : String) : Option Severity :=
  match c.checks[id.toList]? with
  | some rule => if rule.enabled then some rule.severity else none
  | none => (standardChecks[id.toList]?).map CheckRule.severity

/-- Whether a check is on. -/
def isEnabled (c : Config) (id : String) : Bool := (c.severityFor id).isSome

/-- The checks of the configuration that are on, in the order of their names. -/
def enabledChecks (c : Config) : List (Text × CheckRule) :=
  c.checks.toList.filter fun check => check.2.enabled

/-- How many checks of a configuration are on, how many are off, and how many of those that
are on have each severity. -/
structure Stats where
  enabled : Nat := 0
  disabled : Nat := 0
  error : Nat := 0
  warning : Nat := 0
  info : Nat := 0
  deriving DecidableEq, Repr

namespace Stats

/-- Counts one more check. -/
def add (s : Stats) (rule : CheckRule) : Stats :=
  if rule.enabled then
    let s := { s with enabled := s.enabled + 1 }
    match rule.severity with
    | .error => { s with error := s.error + 1 }
    | .warning => { s with warning := s.warning + 1 }
    | .info => { s with info := s.info + 1 }
  else { s with disabled := s.disabled + 1 }

/-- How many checks there are. -/
def total (s : Stats) : Nat := s.enabled + s.disabled

end Stats

/-- The checks of the configuration, counted. -/
def stats (c : Config) : Stats := c.checks.values.foldl Stats.add {}

/-! ## Changes -/

/-- A change to a configuration. -/
inductive Change where
  | addPattern (pattern : Text)
  | setIgnoreFile (name : Text)
  | addExtension (extension : Text)
  | setCheck (id : Text) (rule : CheckRule)
  /-- Turns a check off; nothing if the configuration does not mention it. -/
  | disableCheck (id : Text)

/-- The configuration with a change made. -/
def change (c : Config) : Change → Config
  | .addPattern p => { c with paths.patterns := c.paths.patterns ++ [p] }
  | .setIgnoreFile name => { c with paths.ignoreFile := some name }
  | .addExtension e => { c with paths.extensions := c.paths.extensions ++ [e] }
  | .setCheck id rule => { c with checks := c.checks.insert id rule }
  | .disableCheck id =>
    { c with checks := c.checks.modify id fun rule => { rule with enabled := false } }

/-- The standard configuration with changes made in order, if it can then be used. -/
def build (changes : List Change) : Except Failure Config := do
  let c := changes.foldl change standard
  c.validate
  return c

end Config
end StyleAudit
