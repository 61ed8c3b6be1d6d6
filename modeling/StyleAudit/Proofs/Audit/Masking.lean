import StyleAudit.Proofs.Audit.Verdict
import StyleAudit.Proofs.Extract.LinesFirst

/-!
# What is not found because a check is off

A check that is off is still made.  Only its finding is dropped, and since a file is given up with
the first thing that is wrong, whatever stands behind that is not found either, though the checks
that would find it are on.

For the check for semicolons this file says where that happens.  With the check off, a file comes
to what it would come to if its lines were not looked at (`findingsOn (validateGrammar bytes)`),
except where lines come first; there nothing is found at all (`exists_hidden_issue`).

The main result is `checkFile_without_semicolons`.
-/

namespace StyleAudit.Audit

open Css Extract

/-- What is found in the bytes of a stylesheet if a validation has come to the given verdict. -/
def findingsOn (verdict : Except Failure Text) (c : Config) (now : Moment) (page : Option Text)
    (path : Path) (bytes : List UInt8) : Except Failure (List Diagnostic) :=
  match verdict with
  | .error e => .ok (diagnosticOf? c now path (Utf8.decodeLossy bytes) e).toList
  | .ok source =>
    match page, c.severityFor "unused_selector" with
    | some page, some severity =>
      (unusedSelectors bytes page).map (·.map (unusedDiagnostic now path source severity))
    | _, _ => .ok []

theorem findings_eq_findingsOn (c : Config) (now : Moment) (page : Option Text) (path : Path)
    (bytes : List UInt8) :
    findings c now page path bytes = findingsOn (validate bytes) c now page path bytes := rfl

/-- How what is found in a file, while the check for semicolons is off, compares with what would
be found if the lines were not looked at. -/
structure FollowsGrammar (c : Config) (now : Moment) (page : Option Text) (path : Path)
    (bytes : List UInt8) (outcome : Except Failure (List Diagnostic)) : Prop where
  /-- Where lines come first, nothing is found. -/
  hidden : LinesFirst bytes → outcome = .ok []
  /-- Everywhere else the lines do not matter. -/
  shown : ¬ LinesFirst bytes →
    outcome = findingsOn (validateGrammar bytes) c now page path bytes
  /-- There a block with an issue is found, unless its check is off, too. -/
  issueFound : ¬ LinesFirst bytes → ∀ rules rule, readSheet bytes = .ok rules →
    .qualified rule ∈ rules → ¬ IsReadable rule → ¬ TurnsOff c "parse_error" →
    ∃ d, d.checkId = "parse_error" ∧ outcome = .ok [d]
  /-- And if there is none, every unused selector is found. -/
  unusedFound : ¬ LinesFirst bytes → ∀ rules html, readSheet bytes = .ok rules →
    (∀ rule, .qualified rule ∈ rules → IsReadable rule) → page = some html →
    ¬ TurnsOff c "unused_selector" →
    ∃ source unused severity, Utf8.decode bytes = .ok source ∧
      unusedSelectors bytes html = .ok unused ∧
      c.severityFor "unused_selector" = some severity ∧
      outcome = .ok (unused.map (unusedDiagnostic now path source severity))

/-- While the check for semicolons is off, nothing is found where lines come first. -/
theorem findings_of_linesFirst {c : Config} {bytes : List UInt8}
    (hoff : TurnsOff c "missing_semicolon") (h : LinesFirst bytes) (now : Moment)
    (page : Option Text) (path : Path) : findings c now page path bytes = .ok [] := by
  obtain ⟨line, number, hvalidate⟩ := validate_of_linesFirst h
  rcases findings_of_validate_eq_error c now page path hvalidate with ⟨-, hnil⟩ | ⟨hon, -⟩
  · exact hnil
  · exact absurd hoff hon

/-- **A check that is off hides what stands behind its failure, and nothing else.**  With the
check for semicolons off, a file in which lines come first has no findings.  Any other file has
those that it would have if lines were not looked at: a block with an issue, or else the unused
selectors, as far as their checks are on. -/
theorem checkFile_without_semicolons {tree : Node} {path : Path} {bytes : List UInt8} {c : Config}
    (hread : tree.read path = .ok bytes) (hoff : TurnsOff c "missing_semicolon") (now : Moment)
    (page : Option Text) :
    FollowsGrammar c now page path bytes (checkFile c tree now page path) := by
  rw [checkFile_of_read c now page path hread]
  constructor
  case hidden => exact fun h => findings_of_linesFirst hoff h now page path
  case shown =>
    intro h
    rw [findings_eq_findingsOn, validate_of_not_linesFirst h]
  case issueFound =>
    intro h rules rule hrules hrule hissue hon
    obtain ⟨message, line, column, hgrammar⟩ :=
      exists_validateGrammar_eq_error hrules hrule hissue
    have hvalidate := (validate_of_not_linesFirst h).trans hgrammar
    rcases findings_of_validate_eq_error c now page path hvalidate with ⟨hparse, -⟩ | ⟨-, hfound⟩
    · exact absurd hparse hon
    · exact hfound
  case unusedFound =>
    intro h rules html hrules hreadable hpage hon
    subst hpage
    obtain ⟨source, hsource, hgrammar⟩ := exists_validateGrammar_eq_ok hrules hreadable
    have hvalidate := (validate_of_not_linesFirst h).trans hgrammar
    obtain ⟨unused, severity, hunused, hseverity, hfound⟩ :=
      findings_of_validate_eq_ok c now path hvalidate hon
    exact ⟨source, unused, severity, hsource, hunused, hseverity, hfound⟩

/-! ## Two rules in either order -/

/-- The standard configuration with the check for semicolons turned off. -/
def withoutSemicolons : Config := Config.standard.change (.disableCheck "missing_semicolon".toList)

/-- The check for semicolons is off, and the check for issues is on. -/
theorem severityFor_withoutSemicolons :
    withoutSemicolons.severityFor "missing_semicolon" = none ∧
      withoutSemicolons.severityFor "parse_error" = some .error := by
  decide +kernel

theorem turnsOff_withoutSemicolons : TurnsOff withoutSemicolons "missing_semicolon" :=
  (severityFor_eq_none_iff (by decide)).mp severityFor_withoutSemicolons.1

theorem not_turnsOff_withoutSemicolons : ¬ TurnsOff withoutSemicolons "parse_error" := by
  intro h
  have hseverity := severityFor_withoutSemicolons.2
  rw [(severityFor_eq_none_iff (by decide)).mpr h] at hseverity
  cases hseverity

/-- A rule in line `n` whose block can be read, but has a line that lacks its semicolon. -/
def openLine (n : Nat) : QualifiedRule :=
  ⟨".a".toList, "\n  color: red\n  margin: 0;".toList, n, n⟩

/-- A rule in line `n` whose block has an issue. -/
def faultyBlock (n : Nat) : QualifiedRule := ⟨".b".toList, "\n  width 10px;".toList, n, n⟩

theorem isReadable_openLine (n : Nat) : IsReadable (openLine n) := by
  have hitems : (openLine n).items =
      [.declaration ⟨"color".toList, "red\n  margin: 0".toList, false⟩] := by
    show parseBlock "\n  color: red\n  margin: 0;".toList = _
    decide +kernel
  intro issue hmem
  rw [hitems, List.mem_singleton] at hmem
  cases hmem

theorem not_blockInOrder_openLine (n : Nat) : ¬ BlockInOrder (openLine n).body := by
  have hfound : findUnterminated blockGoesOn 1 (Text.splitLines (Text.trim
      (blankComments "\n  color: red\n  margin: 0;".toList))) ≠ none := by decide +kernel
  rw [BlockInOrder, openLine, ← findUnterminated_eq_none_iff (n := 1)]
  exact hfound

theorem not_isReadable_faultyBlock (n : Nat) : ¬ IsReadable (faultyBlock n) := by
  have hissue : Item.firstIssue? (parseBlock "\n  width 10px;".toList) ≠ none := by
    decide +kernel
  rw [← firstIssue?_items_eq_none_iff, QualifiedRule.items, faultyBlock]
  exact hissue

/-- The line before the issue. -/
def lineThenIssue : Text :=
  ".a \x7b\n  color: red\n  margin: 0;\n\x7d\n.b \x7b\n  width 10px;\n\x7d\n".toList

/-- The issue before the line. -/
def issueThenLine : Text :=
  ".b \x7b\n  width 10px;\n\x7d\n.a \x7b\n  color: red\n  margin: 0;\n\x7d\n".toList

theorem parseStylesheet_eitherOrder :
    parseStylesheet lineThenIssue = [.qualified (openLine 1), .qualified (faultyBlock 5)] ∧
      parseStylesheet issueThenLine = [.qualified (faultyBlock 1), .qualified (openLine 4)] := by
  decide +kernel

theorem readSheet_lineThenIssue : readSheet (Utf8.encode lineThenIssue) =
    .ok [.qualified (openLine 1), .qualified (faultyBlock 5)] := by
  have hrules := parseStylesheet_eitherOrder.1
  rw [readSheet_encode]
  exact loadSheet_eq_ok_iff.mpr ⟨by decide, by rw [hrules]; rfl, hrules⟩

theorem readSheet_issueThenLine : readSheet (Utf8.encode issueThenLine) =
    .ok [.qualified (faultyBlock 1), .qualified (openLine 4)] := by
  have hrules := parseStylesheet_eitherOrder.2
  rw [readSheet_encode]
  exact loadSheet_eq_ok_iff.mpr ⟨by decide, by rw [hrules]; rfl, hrules⟩

theorem linesFirst_lineThenIssue : LinesFirst (Utf8.encode lineThenIssue) :=
  have hbefore : ∀ r ∈ ([] : List Rule), Passes r := by simp
  .block readSheet_lineThenIssue hbefore (isReadable_openLine 1) (not_blockInOrder_openLine 1)

/-- The issue stands before every line, so that no line can come first. -/
theorem not_linesFirst_issueThenLine : ¬ LinesFirst (Utf8.encode issueThenLine) := by
  intro h
  cases h with
  | @block before after rule hread hbefore hreadable =>
    rw [readSheet_issueThenLine] at hread
    cases before with
    | nil =>
      cases hread
      exact not_isReadable_faultyBlock 1 hreadable
    | cons r before =>
      obtain ⟨rfl, -⟩ := List.cons.inj (Except.ok.inj hread)
      exact not_isReadable_faultyBlock 1 (hbefore _ List.mem_cons_self).1
  | sheet hbytes hread hrules =>
    rw [readSheet_issueThenLine] at hread
    cases hread
    exact not_isReadable_faultyBlock 1 (hrules _ List.mem_cons_self).1

/-- A directory with both. -/
def twoOrders : Node :=
  .folder [("a.css".toList, .file (Utf8.encode lineThenIssue)),
    ("b.css".toList, .file (Utf8.encode issueThenLine))]

/-- **A check that is off can hide what a check that is on would find**: with the check for
semicolons off, nothing is found in a stylesheet with a faulty block, although without a look at
its lines the block would be found. -/
theorem exists_hidden_issue :
    TurnsOff withoutSemicolons "missing_semicolon" ∧
      ¬ TurnsOff withoutSemicolons "parse_error" ∧
      (∃ rules rule, readSheet (Utf8.encode lineThenIssue) = .ok rules ∧
        .qualified rule ∈ rules ∧ ¬ IsReadable rule) ∧
      twoOrders.read ⟨"a.css".toList⟩ = .ok (Utf8.encode lineThenIssue) ∧
      checkFile withoutSemicolons twoOrders default none ⟨"a.css".toList⟩ = .ok [] ∧
      ∃ d, d.checkId = "parse_error" ∧
        findingsOn (validateGrammar (Utf8.encode lineThenIssue)) withoutSemicolons default none
          ⟨"a.css".toList⟩ (Utf8.encode lineThenIssue) = .ok [d] := by
  have hread : twoOrders.read ⟨"a.css".toList⟩ = .ok (Utf8.encode lineThenIssue) := rfl
  have hmem : Rule.qualified (faultyBlock 5) ∈
      [Rule.qualified (openLine 1), .qualified (faultyBlock 5)] :=
    List.mem_cons_of_mem _ List.mem_cons_self
  refine ⟨turnsOff_withoutSemicolons, not_turnsOff_withoutSemicolons,
    ⟨_, _, readSheet_lineThenIssue, hmem, not_isReadable_faultyBlock 5⟩, hread, ?_, ?_⟩
  · rw [checkFile_of_read _ _ _ _ hread]
    exact findings_of_linesFirst turnsOff_withoutSemicolons linesFirst_lineThenIssue _ _ _
  · obtain ⟨message, line, column, hgrammar⟩ := exists_validateGrammar_eq_error
      readSheet_lineThenIssue hmem (not_isReadable_faultyBlock 5)
    simp only [findingsOn, hgrammar, diagnosticOf?, Failure.checkId,
      severityFor_withoutSemicolons.2]
    exact ⟨_, rfl, rfl⟩

/-- Of the two stylesheets the one has no findings, and the other one. -/
theorem checkFile_without_semicolons_twoOrders :
    checkFile withoutSemicolons twoOrders default none ⟨"a.css".toList⟩ = .ok [] ∧
      ∃ d, d.checkId = "parse_error" ∧
        checkFile withoutSemicolons twoOrders default none ⟨"b.css".toList⟩ = .ok [d] := by
  have hreadFirst : twoOrders.read ⟨"a.css".toList⟩ = .ok (Utf8.encode lineThenIssue) := rfl
  have hreadSecond : twoOrders.read ⟨"b.css".toList⟩ = .ok (Utf8.encode issueThenLine) := rfl
  have hfirst := checkFile_without_semicolons hreadFirst turnsOff_withoutSemicolons default none
  have hsecond := checkFile_without_semicolons hreadSecond turnsOff_withoutSemicolons default none
  exact ⟨hfirst.hidden linesFirst_lineThenIssue,
    hsecond.issueFound not_linesFirst_issueThenLine _ _ readSheet_issueThenLine
      List.mem_cons_self (not_isReadable_faultyBlock 1) not_turnsOff_withoutSemicolons⟩

end StyleAudit.Audit
