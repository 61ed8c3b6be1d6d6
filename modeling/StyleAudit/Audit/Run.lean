import StyleAudit.Audit.Findings
import StyleAudit.Files.PathFilter
import StyleAudit.Report
import StyleAudit.Settings.Fingerprint

/-!
# Runs

An `Auditor` is a configuration with the path filter that it describes.  A run takes paths,
selects the files they stand for, checks each of them and puts what is found into a sorted
report.

* `select` --- a file stands for itself, a directory for the stylesheets in it that the filter
  lets in, and any other path for nothing.  Patterns of the run that leave files out are then
  asked about all of these, files that were named included.
* `gather` --- a file that cannot be read is passed over, or ends the run.  Files can be
  checked one after the other or side by side; the reports are the same, but the failures that
  end a run are worded differently (`inTurn`, `sideBySide`).
-/

namespace StyleAudit

/-- A configuration with its path filter. -/
structure Auditor where
  config : Config
  filter : PathFilter

namespace Audit

/-- What a run is asked for. -/
structure Options where
  /-- Whether files are checked side by side. -/
  parallel : Bool := true
  /-- The number of files that are checked, if it is limited. -/
  most : Option Nat := none
  /-- Whether a file that cannot be read ends the run. -/
  failFast : Bool := false
  /-- Patterns of files to leave out. -/
  exclude : List Text := []
  /-- Whether ignore files are read. -/
  ignoreFiles : Bool := true
  /-- The page that selectors are looked for in. -/
  page : Option Text := none

/-! ## Selecting files -/

/-- The files that a path stands for. -/
def filesAt (f : PathFilter) (tree : Node) (path : Path) : Except Failure (List Path) :=
  if tree.isFile path then .ok [path]
  else if tree.isFolder path then f.findFiles tree path
  else .ok []

/-- The files that paths stand for, in their order and with repetitions. -/
def filesAtAll (f : PathFilter) (tree : Node) (paths : List Path) : Except Failure (List Path) := do
  return (← paths.mapM (filesAt f tree)).flatten

/-- The files left when those that the patterns match are left out.  If there are patterns,
everything else that the filter leaves out is left out as well. -/
def leaveOut (f : PathFilter) (tree : Node) (patterns : List Text) (files : List Path) :
    Except Failure (List Path) :=
  if patterns.isEmpty then .ok files
  else do
    (← patterns.foldlM PathFilter.addPattern f).filterPaths tree files

/-- The files that a run checks. -/
def select (f : PathFilter) (tree : Node) (o : Options) (paths : List Path) :
    Except Failure (List Path) := do
  let f := if o.ignoreFiles then f else f.withoutIgnoreFiles
  let files ← leaveOut f tree o.exclude (← filesAtAll f tree paths)
  return match o.most with
    | none => files
    | some n => files.take n

/-! ## Gathering what is found -/

/-- What checking a file came to. -/
structure Outcome where
  path : Path
  found : Except Failure (List Diagnostic)

/-- Everything found, in the order of the files.  A file that could not be read is passed over
or, if the run is to fail fast, ends the run with its failure as `reword` has it. -/
def gather (reword : Path → Failure → Failure) (failFast : Bool) :
    List Outcome → Except Failure (List Diagnostic)
  | [] => .ok []
  | ⟨_, .ok ds⟩ :: rest => (gather reword failFast rest).map (ds ++ ·)
  | ⟨path, .error e⟩ :: rest =>
    if failFast then .error (reword path e) else gather reword failFast rest

/-- Without failing fast everything found is gathered, however failures are worded. -/
theorem gather_false (reword : Path → Failure → Failure) (outcomes : List Outcome) :
    gather reword false outcomes =
      .ok (outcomes.flatMap fun o => o.found.toOption.getD []) := by
  induction outcomes with
  | nil => rfl
  | cons o rest ih =>
    obtain ⟨path, found⟩ := o
    cases found with
    | error e => simpa [gather, Except.toOption] using ih
    | ok ds => simp [gather, ih, Except.map, Except.toOption]

/-- Everything found when files are checked one after the other. -/
def inTurn : Bool → List Outcome → Except Failure (List Diagnostic) := gather fun _ e => e

/-- Everything found when files are checked side by side.  A failure names the file once
more. -/
def sideBySide : Bool → List Outcome → Except Failure (List Diagnostic) :=
  gather fun path e => .analysis (String.ofList path.text) e.message

/-- Everything found in files.  A single file is never checked side by side. -/
def gatherAll (o : Options) (outcomes : List Outcome) : Except Failure (List Diagnostic) :=
  if o.parallel && 1 < outcomes.length then sideBySide o.failFast outcomes
  else inTurn o.failFast outcomes

end Audit

namespace Auditor

open Audit

/-! ## Building -/

/-- The name of the ignore files that the settings ask for; an empty name asks for none. -/
def ignoreName? (s : PathSettings) : Option Text := s.ignoreFile.filter fun name => !name.isEmpty

/-- The auditor of a configuration, which has to have passed validation before. -/
def ofConfig (c : Config) : Except Failure Auditor := do
  let filter ← (PathFilter.ofPatterns c.paths.patterns (ignoreName? c.paths)).mapError fun e =>
    .configuration ("Failed to create path filter: " ++ e.message)
  return ⟨c, filter.withExtensions c.paths.extensions⟩

/-- The auditor of a configuration, if that can be used. -/
def create (c : Config) : Except Failure Auditor := do
  c.validate
  ofConfig c

/-! ## Running -/

/-- The report on files, with the diagnostics in the order given.  The time taken is left at
zero. -/
def reportOn (a : Auditor) (now : Moment) (files : Nat) (found : List Diagnostic) : Report :=
  { (Report.empty now).addAll found with
    files := files
    fingerprint := some a.config.fingerprint }

/-- The report on one file, which is checked whether or not the filter lets it in, and without
a page. -/
def checkOne (a : Auditor) (tree : Node) (now : Moment) (path : Path) : Except Failure Report := do
  return a.reportOn now 1 (← checkFile a.config tree now none path)

/-- The report on all files that paths stand for. -/
def checkPaths (a : Auditor) (tree : Node) (now : Moment) (o : Options) (paths : List Path) :
    Except Failure Report := do
  let files ← select a.filter tree o paths
  let found ← gatherAll o (files.map fun path => ⟨path, checkFile a.config tree now o.page path⟩)
  return (a.reportOn now files.length found).sort

end Auditor
end StyleAudit
