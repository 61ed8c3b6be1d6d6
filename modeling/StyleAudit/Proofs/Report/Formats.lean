import StyleAudit.Audit.Run
import StyleAudit.Proofs.Outcomes
import StyleAudit.Proofs.Report.Summary
import StyleAudit.Proofs.Text.Json
import StyleAudit.Report.Render

/-!
# The three formats show one list

Every format shows the same diagnostics, those that `View.shown` picks, and from every format they
can be read off.

* The JSON text is the text of one value only, and the items of this value tell the diagnostics with
  everything that is known about them (`readReport?_toJson`).
* A workflow runner reads one command for each diagnostic, as far as these are plain.
* A person reads a page with one line about each diagnostic, as far as these are legible.

The two formats for machines show the diagnostics one after the other.  The one for a person shows
them group by group, so a report that is not sorted is shown in another order, though each
diagnostic once.  When the report is sorted, the groups are the pieces of one list, and all formats
are in its order.

The counts that are shown with them are those of the report, whatever is picked.  A report counts
what is put into it (`Report.Made`), so these are the numbers of all its diagnostics
(`Made.counts_of`).

The main result is `showsOneList`.
-/

namespace StyleAudit

/-! ## Counts -/

/-- How many diagnostics there are of a severity. -/
def Counts.of (c : Counts) : Severity → Nat
  | .error => c.error
  | .warning => c.warning
  | .info => c.info

theorem Counts.of_add (c : Counts) (s t : Severity) :
    (c.add s).of t = c.of t + if s = t then 1 else 0 := by
  cases s <;> cases t <;> rfl

namespace Report

/-- The reports that can be made: one begins with nothing, diagnostics are added, and it is sorted
and told what it was made from at any time. -/
inductive Made : Report → Prop where
  | empty (now : Moment) : Made (empty now)
  | add {r : Report} (d : Diagnostic) (h : Made r) : Made (r.add d)
  | sort {r : Report} (h : Made r) : Made r.sort
  | describe {r : Report} (files elapsed : Nat) (fingerprint : Option String) (h : Made r) :
    Made { r with files := files, elapsed := elapsed, fingerprint := fingerprint }

/-- **A report counts its diagnostics**, severity by severity. -/
theorem Made.counts_of {r : Report} (h : r.Made) (s : Severity) :
    r.counts.of s = (r.ofSeverity s).length := by
  induction h with
  | empty now => cases s <;> rfl
  | @add r d h ih =>
    rw [Report.add, Counts.of_add, ih, ofSeverity, ofSeverity, List.filter_append,
      List.length_append]
    by_cases hs : d.severity = s <;> simp [hs]
  | sort h ih => exact ih.trans ((List.mergeSort_perm _ _).filter _).length_eq.symm
  | describe files elapsed fingerprint h ih => exact ih

theorem Made.addAll {r : Report} (h : r.Made) (ds : List Diagnostic) : (r.addAll ds).Made := by
  induction ds generalizing r with
  | nil => exact h
  | cons d ds ih => exact ih (h.add d)

/-! ## What is shown -/

theorem shown_eq (v : View) (r : Report) :
    v.shown r = v.most.elim id List.take
      (r.diagnostics.filter fun d => v.mildest.all fun s => decide (s ≤ d.severity)) := by
  have hadmits : v.admits = fun d => v.mildest.all fun s => decide (s ≤ d.severity) := by
    funext d
    unfold View.admits
    cases v.mildest <;> rfl
  rw [View.shown, hadmits]
  cases v.most <;> rfl

/-! ## What JSON tells -/

section Json

open JsonValue

/-- An item of a report as it is read. -/
def readItem? (w : JsonValue) : Option Diagnostic := do
  let checkId ← (← w.member? "check_id").string?
  let severity ← Severity.ofName? (← (← w.member? "severity").string?)
  let path ← (← w.member? "file_path").string?
  let line ← (← w.member? "line_number").orNull? number?
  let column ← (← w.member? "column_number").orNull? number?
  let message ← (← w.member? "message").string?
  let context ← (← w.member? "context").orNull? string?
  let fix ← (← w.member? "suggested_fix").orNull? string?
  let detectedAt ← (← w.member? "detected_at").string?
  return { checkId, severity, path := ⟨path.toList⟩, line, column, message, context, fix,
           detectedAt := ⟨detectedAt⟩ }

/-- A report as it is read: its items, and how many diagnostics there are of each severity. -/
def readReport? (w : JsonValue) : Option (List Diagnostic × Counts) := do
  let items ← (← w.member? "diagnostics").array?
  let ds ← items.mapM readItem?
  let numbers ← (← w.member? "summary").member? "diagnostics_by_severity"
  let error ← (← numbers.member? "error").number?
  let warning ← (← numbers.member? "warning").number?
  let info ← (← numbers.member? "info").number?
  return (ds, { error, warning, info })

/-- **An item tells all there is to know about a diagnostic.** -/
theorem readItem?_diagnosticJson (d : Diagnostic) : readItem? (diagnosticJson d) = some d := by
  simp only [readItem?, diagnosticJson, member?_object_cons, String.reduceEq, reduceIte, string?,
    orNull?_number, orNull?_string, Severity.ofName?_name, String.toList_ofList,
    Option.bind_eq_bind, Option.bind_some]
  rfl

/-- **The items of a report tell the diagnostics that are shown**, in their order. -/
theorem readReport?_toJson (v : View) (r : Report) :
    readReport? (toJson v r) = some (v.shown r, r.counts) := by
  have hitems : ∀ ds : List Diagnostic, (ds.map diagnosticJson).mapM readItem? = some ds := by
    intro ds
    induction ds with
    | nil => rfl
    | cons d ds ih =>
      rw [List.map_cons, List.mapM_cons, readItem?_diagnosticJson, ih]
      rfl
  simp only [readReport?, toJson, summaryJson, member?_object_cons, String.reduceEq, reduceIte,
    array?, number?, hitems, Option.bind_eq_bind, Option.bind_some]
  rfl

end Json

/-! ## The formats together -/

/-- How the formats show a report: the diagnostics `ds` are picked from it, and grouped they are
`groups`. -/
structure ShowsOneList (v : View) (r : Report) (ds : List Diagnostic) (groups : List FileGroup) :
    Prop where
  /-- The diagnostics that are severe enough are picked, up to the number that is asked for. -/
  picked : ds = v.most.elim id List.take
    (r.diagnostics.filter fun d => v.mildest.all fun s => decide (s ≤ d.severity))
  isGrouping : IsGrouping ds groups
  /-- Every diagnostic is in one group, once for each time it is picked. -/
  once : (groups.flatMap FileGroup.diagnostics).Perm ds
  /-- A person sees a page with a line for each group and below it the lines of its diagnostics, and
  a summary. -/
  human : (r.render v .human).toList =
    writtenLines v.colors (page v r.hasErrors groups) ++ (summaryText v r).toList
  /-- On the page there is one line about each diagnostic of the groups. -/
  human_once : (page v r.hasErrors groups).filterMap Line.finding? =
    (groups.flatMap FileGroup.diagnostics).map findingOf
  /-- The lines of the page are what is read, if the diagnostics are legible. -/
  human_read : (∀ d ∈ ds, Legible v d) →
    readPage (r.render v .human).toList = (page v r.hasErrors groups).map some
  /-- The numbers in the summary are the counts of the report. -/
  human_counts : readCounts (r.render v .human).toList = r.counts
  /-- The JSON format is the text of a value, and whatever value has this text, its items are read
  as the diagnostics and its numbers as the counts of the report. -/
  json : (∃ w : JsonValue, w.pretty = r.render v .json) ∧
    ∀ w : JsonValue, w.pretty = r.render v .json → readReport? w = some (ds, r.counts)
  /-- A workflow runner gets one line for each diagnostic, with a command. -/
  workflow : (r.render v .workflow).toList =
    (ds.map fun d => (toldOf d).written).flatMap fun row => row ++ ['\n']
  /-- The commands are what is read, if the diagnostics are plain. -/
  workflow_read : (∀ d ∈ ds, IsPlain d) →
    readCommands (r.render v .workflow).toList = ds.map fun d => some (commandOf d)
  /-- The counts are those of all diagnostics of the report. -/
  counted : r.Made → ∀ s, r.counts.of s = (r.ofSeverity s).length

/-- **The formats show one list**: those for machines in its order, the one for a person grouped
by file.  Of a sorted report they show one list in one order. -/
theorem showsOneList (v : View) (r : Report) :
    ShowsOneList v r (v.shown r) (groupByFile (v.shown r)) ∧
      ShowsOneList v r.sort (v.shown r.sort) (groupByFile (v.shown r.sort)) ∧
      (groupByFile (v.shown r.sort)).flatMap FileGroup.diagnostics = v.shown r.sort := by
  have hshows : ∀ r : Report, ShowsOneList v r (v.shown r) (groupByFile (v.shown r)) := fun r =>
    have hgroups := isGrouping_groupByFile (v.shown r)
    { picked := shown_eq v r
      isGrouping := hgroups
      once := hgroups.perm_flatMap
      human := toList_human v r
      human_once := filterMap_finding?_page v r.hasErrors _
      human_read := readPage_human
      human_counts := readCounts_human v r
      json := ⟨⟨toJson v r, rfl⟩, fun w hw => by
        rw [JsonValue.pretty_injective hw, readReport?_toJson]⟩
      workflow := toList_workflow v r
      workflow_read := readCommands_workflow
      counted := fun h => h.counts_of }
  exact ⟨hshows r, hshows r.sort,
    (isGrouping_groupByFile _).flatMap_eq (pairwise_shown_sort v r)⟩

/-- A report on two files, one of them in two spellings. -/
def twoFiles : Report :=
  (Report.empty default).addAll [
    { checkId := "unused_selector"
      severity := .warning
      path := ⟨"site.css".toList⟩
      line := some 12
      message := "Unused selector: .old"
      detectedAt := default },
    { checkId := "parse_error"
      severity := .error
      path := ⟨"lib//grid.css".toList⟩
      line := some 3
      column := some 7
      message := "CSS parse error in declaration: unexpected token"
      context := some "  color red;"
      fix := some "Check the syntax"
      detectedAt := default },
    { checkId := "decode_error"
      severity := .info
      path := ⟨"site.css".toList⟩
      message := "Not a text"
      detectedAt := default },
    { checkId := "unused_selector"
      severity := .warning
      path := ⟨"lib/grid.css".toList⟩
      message := "Unused selector: .row"
      detectedAt := default }]

/-- All but pieces of information, and no more than three. -/
def threeFromWarnings : View := { most := some 3, mildest := some .warning }

/-- What is read in the three formats of a report of which one diagnostic is left out. -/
theorem showsOneList_twoFiles :
    readPage (twoFiles.render threeFromWarnings .human).toList =
      ([.problems true, .blank,
        .file "lib//grid.css".toList,
        .finding ⟨some (3, some 7), "parse_error".toList, .error,
          "CSS parse error in declaration: unexpected token".toList⟩,
        .context "  color red;".toList, .fix "Check the syntax".toList, .blank,
        .finding ⟨none, "unused_selector".toList, .warning, "Unused selector: .row".toList⟩, .blank,
        .file "site.css".toList,
        .finding ⟨some (12, none), "unused_selector".toList, .warning,
          "Unused selector: .old".toList⟩, .blank] : List Line).map some ∧
    readCounts (twoFiles.render threeFromWarnings .human).toList = ⟨1, 2, 1⟩ ∧
    (∀ w : JsonValue, w.pretty = twoFiles.render threeFromWarnings .json →
      readReport? w = some (twoFiles.diagnostics.eraseIdx 2, ⟨1, 2, 1⟩)) ∧
    readCommands (twoFiles.render threeFromWarnings .workflow).toList =
      (twoFiles.diagnostics.eraseIdx 2).map (fun d => some (commandOf d)) ∧
    (twoFiles.ofSeverity .warning).length = 2 := by
  obtain ⟨h, -, -⟩ := showsOneList threeFromWarnings twoFiles
  have hshown : threeFromWarnings.shown twoFiles = twoFiles.diagnostics.eraseIdx 2 := by
    decide +kernel
  have hpage := h.human_read (by decide +kernel)
  have hjson := h.json.2
  have hcommands := h.workflow_read (by decide +kernel)
  rw [hshown] at hjson hcommands
  exact ⟨hpage.trans (congrArg (List.map some) (by decide +kernel)), h.human_counts, hjson,
    hcommands, (h.counted ((Made.empty default).addAll _) .warning).symm⟩

end Report

/-! ## The report of a run -/

namespace Auditor

/-- A report on findings counts them. -/
theorem made_reportOn (a : Auditor) (now : Moment) (files : Nat) (found : List Diagnostic) :
    (a.reportOn now files found).Made :=
  .describe files _ _ ((Report.Made.empty now).addAll found)

/-- So does the report of a run. -/
theorem made_checkPaths {a : Auditor} {tree : Node} {now : Moment} {o : Audit.Options}
    {paths : List Path} {r : Report} (h : a.checkPaths tree now o paths = .ok r) : r.Made := by
  obtain ⟨files, -, h⟩ := Outcomes.bind_eq_ok_iff.mp h
  obtain ⟨found, -, h⟩ := Outcomes.bind_eq_ok_iff.mp h
  obtain rfl := Except.ok.inj h
  exact (a.made_reportOn now files.length found).sort

end Auditor
end StyleAudit
