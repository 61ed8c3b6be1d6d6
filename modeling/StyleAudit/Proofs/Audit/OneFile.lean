import StyleAudit.Proofs.Audit.AnyOrder

/-!
# One file, checked on its own or by a run

A file can be checked in two ways.  `checkOne` reads it and reports what is found.  `checkPaths`
takes it as the one path of a run: it looks whether the path is a file, may leave files out, may
stop after a number of them, gathers what is found in one of two ways and sorts it.

With the options that a run has by itself the two reports are the same.  A path that names a file
is selected without the path filter being asked, so patterns, ignore files and extensions have no
say.  A single file is never checked side by side.  And sorting has nothing to do: without a page
nothing but the failure of the validation can be found in a file, so there is at most one diagnostic
(`length_found_le_one`).

The main result is `checkPaths_eq_checkOne`.
-/

namespace StyleAudit.Audit

/-! ## At most one diagnostic -/

/-- Without a page at most one thing is found in a file. -/
theorem length_found_le_one {c : Config} {tree : Node} {now : Moment} {path : Path}
    {ds : List Diagnostic} (h : checkFile c tree now none path = .ok ds) : ds.length ≤ 1 := by
  obtain ⟨bytes, -, hfindings⟩ := Outcomes.bind_eq_ok_iff.mp h
  cases hvalidate : Extract.validate bytes with
  | ok source =>
    cases (findings_of_no_search c now none path hvalidate (.inl rfl)).symm.trans hfindings
    exact Nat.zero_le 1
  | error e =>
    rcases findings_of_validate_eq_error c now none path hvalidate with
      ⟨-, hnone⟩ | ⟨-, d, -, hone⟩
    · cases hnone.symm.trans hfindings
      exact Nat.zero_le 1
    · cases hone.symm.trans hfindings
      exact Nat.le_refl 1

/-- A report with at most one diagnostic is sorted. -/
theorem sort_of_length_le_one {r : Report} (h : r.diagnostics.length ≤ 1) : r.sort = r := by
  obtain ⟨diagnostics, counts, files, elapsed, checkedAt, fingerprint⟩ := r
  match diagnostics, h with
  | [], _ => rw [Report.sort, List.mergeSort_nil]
  | [d], _ => rw [Report.sort, List.mergeSort_singleton]

/-! ## Both ways -/

/-- An auditor checks by the configuration that it was built from. -/
theorem config_of_create {c : Config} {a : Auditor} (h : Auditor.create c = .ok a) :
    a.config = c := by
  obtain ⟨-, -, hof⟩ := Outcomes.bind_eq_ok_iff.mp h
  obtain ⟨filter, -, hauditor⟩ := Outcomes.bind_eq_ok_iff.mp hof
  cases hauditor
  rfl

/-- **A file gets the same report whether it is checked on its own or by a run over its path
alone.**  The file has to be readable and the run has the options that it has by itself; what the
path filter says of the file does not matter.  Either way what is found in the file is reported
and nothing else, one file is counted, and the fingerprint is that of the configuration.  A run at
another moment has that moment written into its report. -/
theorem checkPaths_eq_checkOne {c : Config} {a : Auditor} {tree : Node} {path : Path}
    {bytes : List UInt8} (hcreate : Auditor.create c = .ok a)
    (hread : tree.read path = .ok bytes) (now later : Moment) :
    ∃ report, a.checkOne tree now path = .ok report ∧
      a.checkPaths tree later {} [path] = .ok (report.redate later) ∧
      findings c now none path bytes = .ok report.diagnostics ∧
      report.counts = Report.countsOf {} report.diagnostics ∧
      report.files = 1 ∧ report.fingerprint = some c.fingerprint := by
  obtain rfl := config_of_create hcreate
  obtain ⟨ds, hfound⟩ := exists_checkFile hread a.config now none
  have hlater : checkFile a.config tree later none path =
      .ok (ds.map (Diagnostic.redate later)) := by
    rw [checkFile_redate a.config tree now later none path, hfound]
    rfl
  have hdiagnostics : (a.reportOn now 1 ds).diagnostics = ds := by
    rw [Auditor.reportOn, Report.addAll_eq]
    rfl
  have hcounts : (a.reportOn now 1 ds).counts = Report.countsOf {} ds := by
    rw [Auditor.reportOn, Report.addAll_eq]
    rfl
  have hsorted : (a.reportOn now 1 ds).sort = a.reportOn now 1 ds :=
    sort_of_length_le_one (by rw [hdiagnostics]; exact length_found_le_one hfound)
  refine ⟨a.reportOn now 1 ds, ?_, ?_, ?_, ?_, rfl, rfl⟩
  · rw [Auditor.checkOne, hfound]
    rfl
  · rw [checkPaths_of_isFile a later (isFile_of_read hread) rfl rfl hlater,
      reportOn_redate a now later, Report.sort_redate, hsorted]
  · rw [hdiagnostics, ← checkFile_of_read a.config now none path hread, hfound]
  · rw [hdiagnostics, hcounts]

/-- A note with a brace too many, in a directory that is left out; its own ignore file names it as
well. -/
def brokenNote : Node :=
  .folder [("vendor".toList, .folder [(".cssignore".toList, .file (Utf8.encode "notes.txt".toList)),
    ("notes.txt".toList, .file (Utf8.encode ['\x7d']))])]

/-- The standard configuration with a pattern for the directory. -/
def withoutVendorFiles : Config := Config.standard.change (.addPattern "vendor/**".toList)

/-- The filter lets the note in neither by its patterns nor by the ignore file, and the note is no
stylesheet; its report is the same either way, with the one diagnostic. -/
theorem checkPaths_eq_checkOne_brokenNote :
    ∃ a, Auditor.create withoutVendorFiles = .ok a ∧
      brokenNote.read ⟨"vendor/notes.txt".toList⟩ = .ok (Utf8.encode ['\x7d']) ∧
      a.filter.admits brokenNote ⟨"vendor/notes.txt".toList⟩ = .ok false ∧
      a.filter.passesIgnoreFiles brokenNote ⟨"vendor/notes.txt".toList⟩ = .ok false ∧
      a.filter.isStylesheet ⟨"vendor/notes.txt".toList⟩ = false ∧
      ∃ report, a.checkOne brokenNote ⟨"now"⟩ ⟨"vendor/notes.txt".toList⟩ = .ok report ∧
        a.checkPaths brokenNote ⟨"later"⟩ {} [⟨"vendor/notes.txt".toList⟩] =
          .ok (report.redate ⟨"later"⟩) ∧
        report.diagnostics.length = 1 ∧ report.files = 1 := by
  have hfilter : (Auditor.create withoutVendorFiles).toOption.map (fun a =>
      ((a.filter.admits brokenNote ⟨"vendor/notes.txt".toList⟩).toOption,
        (a.filter.passesIgnoreFiles brokenNote ⟨"vendor/notes.txt".toList⟩).toOption,
        a.filter.isStylesheet ⟨"vendor/notes.txt".toList⟩)) =
      some (some false, some false, false) := by decide +kernel
  obtain ⟨a, ha, hsays⟩ := Option.map_eq_some_iff.mp hfilter
  obtain ⟨hadmits, hrest⟩ := Prod.mk.inj hsays
  obtain ⟨hpasses, hkind⟩ := Prod.mk.inj hrest
  have hcreate := Outcomes.eq_ok_of_toOption ha
  have hread : brokenNote.read ⟨"vendor/notes.txt".toList⟩ = .ok (Utf8.encode ['\x7d']) := rfl
  obtain ⟨report, hone, hrun, hfound, -, hfiles, -⟩ :=
    checkPaths_eq_checkOne hcreate hread ⟨"now"⟩ ⟨"later"⟩
  have hlength : (findings withoutVendorFiles ⟨"now"⟩ none ⟨"vendor/notes.txt".toList⟩
      (Utf8.encode ['\x7d'])).toOption.map List.length = some 1 := by decide +kernel
  rw [hfound] at hlength
  exact ⟨a, hcreate, hread, Outcomes.eq_ok_of_toOption hadmits,
    Outcomes.eq_ok_of_toOption hpasses, hkind, report, hone, hrun, Option.some.inj hlength, hfiles⟩

end StyleAudit.Audit
