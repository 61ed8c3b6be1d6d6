import StyleAudit.Diagnostic

/-!
# Reports

A `Report` collects the diagnostics of a run and counts them by severity as they come in.
Sorting is stable: diagnostics that the order does not tell apart stay as they came.
-/

namespace StyleAudit

/-- How many diagnostics there are of each severity. -/
structure Counts where
  error : Nat := 0
  warning : Nat := 0
  info : Nat := 0
  deriving DecidableEq, Repr, Inhabited

namespace Counts

/-- One more diagnostic of the given severity. -/
def add (c : Counts) : Severity → Counts
  | .error => { c with error := c.error + 1 }
  | .warning => { c with warning := c.warning + 1 }
  | .info => { c with info := c.info + 1 }

/-- How many diagnostics there are. -/
def total (c : Counts) : Nat := c.error + c.warning + c.info

theorem total_add (c : Counts) (s : Severity) : (c.add s).total = c.total + 1 := by
  cases s <;> simp only [add, total] <;> omega

end Counts

/-- What a run of checks found. -/
structure Report where
  diagnostics : List Diagnostic := []
  counts : Counts := {}
  /-- The number of files looked at. -/
  files : Nat := 0
  /-- The time taken, in milliseconds. -/
  elapsed : Nat := 0
  checkedAt : Moment
  /-- Tells configurations apart. -/
  fingerprint : Option String := none
  deriving Inhabited

namespace Report

/-- The report before anything is found. -/
def empty (now : Moment) : Report := { checkedAt := now }

/-- The report with one more diagnostic at its end. -/
def add (r : Report) (d : Diagnostic) : Report :=
  { r with diagnostics := r.diagnostics ++ [d], counts := r.counts.add d.severity }

/-- The report with more diagnostics at its end. -/
def addAll (r : Report) (ds : List Diagnostic) : Report := ds.foldl add r

/-- The report with its diagnostics in the order in which they are shown. -/
def sort (r : Report) : Report :=
  { r with diagnostics := r.diagnostics.mergeSort fun a b => (a.cmp b).isLE }

theorem diagnostics_addAll (r : Report) (ds : List Diagnostic) :
    (r.addAll ds).diagnostics = r.diagnostics ++ ds := by
  induction ds generalizing r with
  | nil => simp [addAll]
  | cons d ds ih => simpa [addAll, add] using ih (r.add d)

/-- Whether there are any diagnostics. -/
def hasDiagnostics (r : Report) : Bool := !r.diagnostics.isEmpty

/-- Whether the run failed. -/
def hasErrors (r : Report) : Bool := 0 < r.counts.error

/-- The diagnostics of one severity. -/
def ofSeverity (r : Report) (s : Severity) : List Diagnostic :=
  r.diagnostics.filter fun d => d.severity == s

end Report
end StyleAudit
