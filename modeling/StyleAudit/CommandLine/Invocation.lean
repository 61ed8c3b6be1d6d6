import StyleAudit.CommandLine.Grammar
import StyleAudit.Files.Path
import StyleAudit.Report.View

/-!
# What the program is asked to do

An `Invocation` is a command with the settings that all commands share.  It is read from the
words of the command line by the program's grammar.  The shared options may stand behind any
command; the one that stands behind the innermost command counts.
-/

namespace StyleAudit.CommandLine

/-! ## Commands -/

/-- What is asked about a stylesheet. -/
inductive Question where
  | colors
  | media
  | animations
  | fonts
  /-- Who sets the property. -/
  | property (name : Text)
  /-- Which selectors the page does not use. -/
  | unused (page : Path)

/-- What files are checked and how the report is shown. -/
structure CheckRequest where
  paths : List Path
  format : Report.Format
  /-- The mildest severity shown. -/
  mildest : Option Severity
  /-- The number of diagnostics shown. -/
  most : Option Nat
  exclude : List Text
  ignoreFiles : Bool
  parallel : Bool
  failFast : Bool
  page : Option Path

/-- What the program does. -/
inductive Command where
  | check (request : CheckRequest)
  /-- Tells whether a stylesheet is valid. -/
  | validate (file : Path)
  /-- Answers a question about a stylesheet. -/
  | extract (question : Question) (file : Path)
  /-- Tells whether a configuration can be used. -/
  | validateConfig (file : Option Path)
  /-- Describes a check. -/
  | explain (id : Text)
  /-- Lists the checks. -/
  | checks (enabledOnly : Bool)

/-- A command with the shared settings. -/
structure Invocation where
  command : Command
  /-- The configuration file that is asked for. -/
  config : Option Path
  colors : Bool

/-! ## The grammar -/

/-- The options that all commands share. -/
def sharedSwitches : List Switch :=
  [⟨"verbose", some 'v', .flag⟩, ⟨"config", some 'c', .value .path⟩, ⟨"no-color", none, .flag⟩,
    ⟨"help", some 'h', .stop .help⟩]

/-- The grammar of a command that takes these values and, besides the shared ones, these
options. -/
def commandGrammar (values : List ValueKind) (switches : List Switch) : Grammar :=
  { switches := switches ++ sharedSwitches, values := values, required := values.length }

/-- The names of the severities. -/
def severityNames : List String := [Severity.info, .warning, .error].map Severity.name

/-- The grammar of `check`. -/
def checkGrammar : Grammar :=
  { commandGrammar []
      [⟨"format", some 'f', .value (.oneOf (Report.Format.all.map Prod.fst))⟩,
        ⟨"severity", some 's', .value (.oneOf severityNames)⟩,
        ⟨"max-diagnostics", none, .value .number⟩,
        ⟨"exclude", none, .values .any⟩,
        ⟨"no-ignore", none, .flag⟩,
        ⟨"no-parallel", none, .flag⟩,
        ⟨"fail-fast", none, .flag⟩,
        ⟨"html", none, .value .path⟩] with
    further := some .path }

/-- The grammar of `extract`. -/
def extractGrammar : Grammar :=
  { commandGrammar [] [] with
    commands := [
      ("colors", commandGrammar [.path] []),
      ("media", commandGrammar [.path] []),
      ("animations", commandGrammar [.path] []),
      ("fonts", commandGrammar [.path] []),
      ("property", commandGrammar [.path, .any] []),
      ("unused", commandGrammar [.path] [⟨"html", none, .value .path⟩])] }

/-- The grammar of the program. -/
def programGrammar : Grammar :=
  { commandGrammar [] [⟨"version", some 'V', .stop .version⟩] with
    commands := [
      ("check", checkGrammar),
      ("validate", commandGrammar [.path] []),
      ("extract", extractGrammar),
      ("validate-config", { commandGrammar [.path] [] with required := 0 }),
      ("explain", commandGrammar [.any] []),
      ("checks", commandGrammar [] [⟨"enabled-only", none, .flag⟩])] }

/-! ## Reading -/

/-- What is given to `check`. -/
def CheckRequest.ofGiven (g : Given) : CheckRequest where
  paths := g.values.map Path.mk
  format := ((g.value? "format").bind fun t => Report.Format.ofName? (String.ofList t)).getD .human
  mildest := (g.value? "severity").bind fun t => Severity.ofName? (String.ofList t)
  most := (g.value? "max-diagnostics").bind numberOf?
  exclude := g.valuesOf "exclude"
  ignoreFiles := !g.has "no-ignore"
  parallel := !g.has "no-parallel"
  failFast := g.has "fail-fast"
  page := (g.value? "html").map Path.mk

/-- The command of the given name under `extract`. -/
def extractOf? (name : String) (g : Given) : Option Command :=
  match name, g.values with
  | "colors", [file] => some (.extract .colors ⟨file⟩)
  | "media", [file] => some (.extract .media ⟨file⟩)
  | "animations", [file] => some (.extract .animations ⟨file⟩)
  | "fonts", [file] => some (.extract .fonts ⟨file⟩)
  | "property", [file, property] => some (.extract (.property property) ⟨file⟩)
  | "unused", [file] => (g.value? "html").map fun page => .extract (.unused ⟨page⟩) ⟨file⟩
  | _, _ => none

/-- The command that is asked for by what is given to the commands below the program. -/
def Command.ofGiven? : List (String × Given) → Option Command
  | [("check", g)] => some (.check (.ofGiven g))
  | [("validate", g)] => g.values.head?.map fun file => .validate ⟨file⟩
  | [("extract", _), (name, g)] => extractOf? name g
  | [("validate-config", g)] => some (.validateConfig (g.values.head?.map Path.mk))
  | [("explain", g)] => g.values.head?.map .explain
  | [("checks", g)] => some (.checks (g.has "enabled-only"))
  | _ => none

/-- What the words of a command line ask for. -/
def Invocation.ofWords (words : List Text) : Except Refusal Invocation := do
  let read ← programGrammar.read words
  match Command.ofGiven? read.tail with
  | none => throw .misuse
  | some command =>
    return {
      command := command
      config := (read.reverse.findSome? fun r => r.2.value? "config").map Path.mk
      colors := !read.any fun r => r.2.has "no-color" }

end StyleAudit.CommandLine
