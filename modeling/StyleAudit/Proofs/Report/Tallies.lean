import StyleAudit.Proofs.Audit.Verdict
import StyleAudit.Proofs.Report.Formats

/-!
# What a report counts, how it is sorted, and the code that a check ends with

A report keeps its counts beside its diagnostics: each diagnostic is counted when it comes in, and
nobody ever counts again.  Sorting rearranges the diagnostics and leaves the counts alone.  So that
the two agree is an invariant of all that can be done with a report (`Made.tallies`), and not a
property of the way in which a run happens to fill it.

The code that the command `check` ends with is read from the counts, while what is shown is picked
from the diagnostics.  The report that a request comes to (`reportFor`) knows nothing of the view,
so neither does the code (`exitCode_eq_codeFor`), and by the invariant the code tells whether there
is an error among the diagnostics.

* `Made.tallies` --- the counts agree with the diagnostics;
* `isStableSort_sort`, `sort_sort` --- sorting puts the diagnostics in order, keeps those that the
  order does not tell apart as they came, and changes nothing the second time;
* `tallied_sorted_and_exits` --- the main result, the code of a check included.
-/

namespace StyleAudit

/-! ## The order of diagnostics -/

namespace Diagnostic

/-- Whether one diagnostic may stand before another in a sorted report: files come part by part,
then lines, those without a line first, then the worse before the milder. -/
def MayPrecede (a b : Diagnostic) : Prop :=
  compare a.path.parts b.path.parts = .lt ∨
    a.path.parts = b.path.parts ∧
      (a.line.getD 0 < b.line.getD 0 ∨
        a.line.getD 0 = b.line.getD 0 ∧ b.severity ≤ a.severity)

/-- Whether two diagnostics are about one file and one line, and equally bad. -/
def SamePlace (a b : Diagnostic) : Prop :=
  a.path.parts = b.path.parts ∧ a.line.getD 0 = b.line.getD 0 ∧ a.severity = b.severity

instance (a b : Diagnostic) : Decidable (a.SamePlace b) :=
  inferInstanceAs (Decidable (_ ∧ _ ∧ _))

theorem isLE_cmp_iff {a b : Diagnostic} : (a.cmp b).isLE = true ↔ a.MayPrecede b := by
  have hfile : (a.path.cmp b.path).isLE = true ↔
      a.path.cmp b.path = .lt ∨ a.path.parts = b.path.parts := by
    rw [Ordering.isLE_iff_eq_lt_or_eq_eq, Path.cmp_eq_iff]
  rw [cmp, Ordering.isLE_then_iff_or, Ordering.then_eq_lt, Ordering.then_eq_eq, Path.cmp_eq_iff,
    Nat.compare_eq_lt, Nat.compare_eq_eq, Nat.isLE_compare]
  show ((a.path.cmp b.path = .lt ∨ a.path.parts = b.path.parts ∧ _) ∨ (_ ∧ _) ∧ _) ↔
    (a.path.cmp b.path = .lt ∨ a.path.parts = b.path.parts ∧ (_ ∨ _ ∧ b.severity.rank ≤ _))
  rw [or_assoc, and_assoc, ← and_or_left]

theorem tied_iff {a b : Diagnostic} : tied cmp a b = true ↔ a.SamePlace b := by
  have hseverity : b.severity.rank = a.severity.rank ↔ a.severity = b.severity :=
    ⟨fun h => (Severity.rank_injective h).symm, fun h => by rw [h]⟩
  rw [tied, beq_iff_eq, cmp, Ordering.then_eq_eq, Ordering.then_eq_eq, Path.cmp_eq_iff,
    Nat.compare_eq_eq, Nat.compare_eq_eq, hseverity, and_assoc, SamePlace]

end Diagnostic

namespace Report

/-- Whether diagnostics are put in order, those that the order does not tell apart staying as
they came. -/
structure IsStableSort (ds sorted : List Diagnostic) : Prop where
  perm : sorted.Perm ds
  ordered : sorted.Pairwise Diagnostic.MayPrecede
  stable : ∀ d : Diagnostic,
    (sorted.filter fun e => d.SamePlace e) = ds.filter fun e => d.SamePlace e

theorem pairwise_sort (r : Report) :
    r.sort.diagnostics.Pairwise fun a b => (a.cmp b).isLE = true :=
  List.pairwise_mergeSort (fun _ _ _ => Std.TransCmp.isLE_trans) isLE_total _

/-- **Sorting a report is a stable sort of its diagnostics.** -/
theorem isStableSort_sort (r : Report) : IsStableSort r.diagnostics r.sort.diagnostics where
  perm := List.mergeSort_perm _ _
  ordered := r.pairwise_sort.imp Diagnostic.isLE_cmp_iff.mp
  stable := by
    intro d
    have htied : tied Diagnostic.cmp d = fun e => decide (d.SamePlace e) := by
      funext e
      rw [Bool.eq_iff_iff, Diagnostic.tied_iff, decide_eq_true_iff]
    have hkept : r.sort.diagnostics.filter (tied Diagnostic.cmp d) =
        r.diagnostics.filter (tied Diagnostic.cmp d) := filter_tied_mergeSort d r.diagnostics
    rwa [htied] at hkept

/-- A sorted report is sorted already. -/
theorem sort_sort (r : Report) : r.sort.sort = r.sort := by
  have hsorted : (r.sort.diagnostics.mergeSort fun a b => (a.cmp b).isLE) = r.sort.diagnostics :=
    List.mergeSort_of_pairwise r.pairwise_sort
  rw [sort, hsorted]

/-! ## Counts -/

/-- Whether the counts of a report agree with its diagnostics. -/
structure Tallies (r : Report) : Prop where
  error : r.counts.error = r.diagnostics.countP fun d => d.severity == .error
  warning : r.counts.warning = r.diagnostics.countP fun d => d.severity == .warning
  info : r.counts.info = r.diagnostics.countP fun d => d.severity == .info
  ofSeverity : ∀ s, r.counts.of s = (r.ofSeverity s).length
  total : r.counts.total = r.diagnostics.length
  hasErrors : r.hasErrors = true ↔ ∃ d ∈ r.diagnostics, d.isBlocking = true

/-- What is counted in all is what is there. -/
theorem Made.total {r : Report} (h : r.Made) : r.counts.total = r.diagnostics.length := by
  induction h with
  | empty now => rfl
  | @add r d h ih =>
    show (r.counts.add d.severity).total = (r.diagnostics ++ [d]).length
    rw [Counts.total_add, ih, List.length_append, List.length_singleton]
  | @sort r h ih => exact ih.trans (List.length_mergeSort _).symm
  | describe files elapsed fingerprint h ih => exact ih

/-- **The counts of a report that can be made agree with its diagnostics.** -/
theorem Made.tallies {r : Report} (h : r.Made) : r.Tallies := by
  have hcount : ∀ s, r.counts.of s = r.diagnostics.countP fun d => d.severity == s := by
    intro s
    rw [h.counts_of, ofSeverity, List.countP_eq_length_filter]
  have hfails : r.hasErrors = true ↔ ∃ d ∈ r.diagnostics, d.isBlocking = true := by
    have herror : r.counts.error = r.diagnostics.countP Diagnostic.isBlocking := hcount .error
    rw [Report.hasErrors, decide_eq_true_iff, herror, List.countP_pos_iff]
  exact {
    error := hcount .error
    warning := hcount .warning
    info := hcount .info
    ofSeverity := h.counts_of
    total := h.total
    hasErrors := hfails }

end Report

/-! ## The code that a check ends with -/

namespace CommandLine

/-- The report that a request to check files comes to, whatever is then shown of it. -/
def reportFor (tree : Node) (now : Moment) (asked : Option Path) (r : CheckRequest) :
    Except Failure Report := do
  let config ← configFor tree asked
  let page ← r.page.mapM (Audit.readFile tree)
  let auditor ← Auditor.create config
  auditor.checkPaths tree now
    { parallel := r.parallel
      failFast := r.failFast
      exclude := r.exclude
      ignoreFiles := r.ignoreFiles
      page := page.map Utf8.decodeLossy }
    (if r.paths.isEmpty then [⟨['.']⟩] else r.paths)

/-- The code for what a request comes to: one if there is an error among the diagnostics, and one
as well if there is no report. -/
def codeFor : Except Failure Report → Nat
  | .ok report => if report.diagnostics.any fun d => d.severity == .error then 1 else 0
  | .error _ => 1

/-- A check makes its report first and looks at the view only then. -/
theorem answerCheck_eq (tree : Node) (clock : Clock) (i : Invocation) (r : CheckRequest) :
    answerCheck tree clock i r = (reportFor tree clock.now i.config r).map fun report =>
      { exitCode := if report.hasErrors then 1 else 0
        output := line ({ report with elapsed := clock.elapsed }.render
          { colors := i.colors, most := r.most, mildest := r.mildest } r.format) } := by
  simp only [answerCheck, reportFor, bind, Except.bind]
  cases configFor tree i.config with
  | error e => rfl
  | ok config =>
    dsimp only
    cases r.page.mapM (Audit.readFile tree) with
    | error e => rfl
    | ok page =>
      dsimp only
      cases Auditor.create config with
      | error e => rfl
      | ok auditor =>
        dsimp only
        cases auditor.checkPaths tree clock.now _ _ <;> rfl

/-- Every report that a request comes to can be made. -/
theorem made_reportFor {tree : Node} {now : Moment} {asked : Option Path} {r : CheckRequest}
    {report : Report} (h : reportFor tree now asked r = .ok report) : report.Made := by
  obtain ⟨config, -, h⟩ := Outcomes.bind_eq_ok_iff.mp h
  obtain ⟨page, -, h⟩ := Outcomes.bind_eq_ok_iff.mp h
  obtain ⟨auditor, -, h⟩ := Outcomes.bind_eq_ok_iff.mp h
  exact Auditor.made_checkPaths h

/-- **The code of a check is read off the report that the request comes to.** -/
theorem exitCode_eq_codeFor {tree : Node} {clock : Clock} {words : List Text} {i : Invocation}
    {r : CheckRequest} (hwords : Invocation.ofWords words = .ok i)
    (hcommand : i.command = .check r) :
    (answer tree clock words).exitCode = codeFor (reportFor tree clock.now i.config r) := by
  rw [answer, hwords]
  simp only [Invocation.answer?, hcommand, answerCheck_eq]
  cases hreport : reportFor tree clock.now i.config r with
  | error e => rfl
  | ok report =>
    have hfails : report.hasErrors = report.diagnostics.any fun d => d.severity == .error := by
      rw [Bool.eq_iff_iff, (made_reportFor hreport).tallies.hasErrors, List.any_eq_true]
      rfl
    show (if report.hasErrors then 1 else 0) = codeFor (.ok report)
    rw [hfails]
    rfl

/-- How a command line that asks for a check ends. -/
structure ExitsByErrors (tree : Node) (clock : Clock) (words : List Text) (i : Invocation)
    (r : CheckRequest) : Prop where
  /-- The code tells whether an error was found. -/
  code : (answer tree clock words).exitCode = codeFor (reportFor tree clock.now i.config r)
  /-- The report that was made counts what was found. -/
  tallies : ∀ report, reportFor tree clock.now i.config r = .ok report → report.Tallies
  /-- Another format, another limit to what is shown, and colours do not matter. -/
  whatever_shown : ∀ (words' : List Text) (i' : Invocation) (format : Report.Format)
    (mildest : Option Severity) (most : Option Nat), Invocation.ofWords words' = .ok i' →
    i'.config = i.config →
    i'.command = .check { r with format := format, mildest := mildest, most := most } →
    (answer tree clock words').exitCode = (answer tree clock words).exitCode

/-- **Reports tally, sorting is stable, and the code of a check tells the errors.**  The first two
hold of every report that can be made, the last of every command line that asks for a check. -/
theorem tallied_sorted_and_exits :
    (∀ r : Report, r.Made → r.Tallies ∧ Report.IsStableSort r.diagnostics r.sort.diagnostics ∧
      r.sort.sort = r.sort) ∧
    ∀ (tree : Node) (clock : Clock) (words : List Text) (i : Invocation) (r : CheckRequest),
      Invocation.ofWords words = .ok i → i.command = .check r →
        ExitsByErrors tree clock words i r := by
  refine ⟨fun r hmade => ⟨hmade.tallies, r.isStableSort_sort, r.sort_sort⟩, ?_⟩
  intro tree clock words i r hwords hcommand
  have hcode : (answer tree clock words).exitCode =
      codeFor (reportFor tree clock.now i.config r) := exitCode_eq_codeFor hwords hcommand
  refine ⟨hcode, fun report hreport => (made_reportFor hreport).tallies, ?_⟩
  intro words' i' format mildest most hwords' hconfig hcommand'
  rw [exitCode_eq_codeFor hwords' hcommand', hcode, hconfig]
  rfl

/-- The words that ask for a check of one file. -/
def checkWords : List Text := "check".toList :: Audit.operand ⟨"a.css".toList⟩

/-- A warning and then an error, both in one file and about the whole of it. -/
def warningThenError : Report :=
  ((Report.empty default).add
      { (default : Diagnostic) with severity := .warning, line := none }).add
    { (default : Diagnostic) with severity := .error, line := none }

/-- Such a report counts one of each, and a check of a file is told by its errors. -/
theorem tallied_sorted_and_exits_checkWords :
    (warningThenError.Made ∧ warningThenError.counts.of .error = 1 ∧
      Report.IsStableSort warningThenError.diagnostics warningThenError.sort.diagnostics) ∧
    ∀ (tree : Node) (clock : Clock),
      ExitsByErrors tree clock checkWords
        { command := .check (.ofGiven { values := ["a.css".toList] }), config := none,
          colors := true } (.ofGiven { values := ["a.css".toList] }) := by
  have hmade : warningThenError.Made := ((Report.Made.empty default).add _).add _
  obtain ⟨htallies, hsort, -⟩ := tallied_sorted_and_exits.1 warningThenError hmade
  have herror : warningThenError.counts.of .error = 1 := (htallies.ofSeverity .error).trans rfl
  refine ⟨⟨hmade, herror, hsort⟩, fun tree clock => ?_⟩
  exact tallied_sorted_and_exits.2 tree clock _ _ _ (Audit.ofWords_check (by decide)) rfl

end CommandLine
end StyleAudit
