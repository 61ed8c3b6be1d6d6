import StyleAudit.CommandLine.Answer
import StyleAudit.Proofs.Audit.Collecting
import StyleAudit.Proofs.Audit.SideBySide
import StyleAudit.Proofs.Extract.Refusal

/-!
# What a check of one file comes to

Whatever bytes a file holds, checking it has an outcome.  Either the bytes are a valid
stylesheet, and then only unused selectors can be found; the search for them starts with tests
that a valid stylesheet has passed already, so it cannot fail (`exists_unusedSelectors`).  Or
they are not, and then the failure of the validation is the finding.  Such a failure belongs to
one of four checks (`checkId_of_validate_eq_error`), and each of the four has standard settings,
so the only way to find nothing is a configuration that turns the check off
(`severityFor_eq_none_iff`).

With the standard configuration, where each of the four checks reports errors, the commands
`check` and `validate` therefore end with the same code for one file.

* `findings_of_validate_eq_error`, `findings_of_validate_eq_ok` --- the two kinds of outcome;
* `exitCode_check`, `exitCode_validate` --- the code that either command ends with;
* `check_judges_file` --- all of it in one statement.
-/

namespace StyleAudit.Audit

open CommandLine

/-! ## Checks that are off -/

/-- Whether the configuration mentions the check and turns it off. -/
def TurnsOff (c : Config) (id : String) : Prop :=
  ∃ rule, c.checks[id.toList]? = some rule ∧ rule.enabled = false

/-- A check that exists has a severity unless it is turned off. -/
theorem severityFor_eq_none_iff {c : Config} {id : String} (hid : id ∈ Config.checkIds) :
    c.severityFor id = none ↔ TurnsOff c id := by
  have hstandard : (Config.standardChecks[id.toList]?).isSome = true :=
    (by decide : ∀ id ∈ Config.checkIds, (Config.standardChecks[id.toList]?).isSome = true) id hid
  unfold Config.severityFor TurnsOff
  cases hrule : c.checks[id.toList]? with
  | none =>
    obtain ⟨rule, hstandard⟩ := Option.isSome_iff_exists.mp hstandard
    simp [hstandard]
  | some rule => cases henabled : rule.enabled <;> simp [henabled]

/-- The standard configuration turns no check off. -/
theorem not_turnsOff_standard {id : String} (hid : id ∈ Config.checkIds) :
    ¬ TurnsOff .standard id := fun hoff =>
  (by decide : ∀ id ∈ Config.checkIds, Config.standard.severityFor id ≠ none) id hid
    ((severityFor_eq_none_iff hid).mpr hoff)

/-! ## Checks that a stylesheet can fail -/

/-- The checks that the validation of a stylesheet can fail. -/
def validityChecks : List String :=
  ["unbalanced_braces", "parse_error", "missing_semicolon", "decode_error"]

theorem mem_checkIds_of_mem_validityChecks {id : String} (h : id ∈ validityChecks) :
    id ∈ Config.checkIds :=
  (by decide : ∀ id ∈ validityChecks, id ∈ Config.checkIds) id h

/-- What fails before the rules are read fails the validation. -/
theorem validate_of_readSheet {bytes : List UInt8} {e : Failure}
    (h : Extract.readSheet bytes = .error e) : Extract.validate bytes = .error e :=
  have hfail : Extract.AllFail bytes [] [] e := Extract.allFail_of_readSheet h
  hfail.validate

/-- **Every failure of the validation belongs to one of four checks.** -/
theorem checkId_of_validate_eq_error {bytes : List UInt8} {e : Failure}
    (h : Extract.validate bytes = .error e) : e.checkId ∈ validityChecks := by
  cases hread : Extract.readSheet bytes with
  | error e' =>
    have hfail := validate_of_readSheet hread
    rw [h] at hfail
    cases hfail
    cases Extract.readSheet_eq_error_iff.mp hread with
    | decode hbytes => exact List.mem_of_getElem? (i := 3) rfl
    | braces hbytes hne => exact List.mem_of_getElem? (i := 0) rfl
    | issue hbytes heq hrules hfirst => exact List.mem_of_getElem? (i := 1) rfl
  | ok rules =>
    cases (Extract.answered_of_readSheet [] [] hread).validate e h with
    | parse message line column => exact List.mem_of_getElem? (i := 1) rfl
    | missingSemicolon line number => exact List.mem_of_getElem? (i := 2) rfl

/-- In a valid stylesheet the unused selectors can be looked for. -/
theorem exists_unusedSelectors {bytes : List UInt8} {source : Text}
    (h : Extract.validate bytes = .ok source) (page : Text) :
    ∃ unused, Extract.unusedSelectors bytes page = .ok unused := by
  cases hread : Extract.readSheet bytes with
  | error e =>
    have hfail := validate_of_readSheet hread
    rw [h] at hfail
    cases hfail
  | ok rules => exact (Extract.answered_of_readSheet [] page hread).unusedSelectors

/-! ## What is found -/

section Findings

variable (c : Config) (now : Moment) (page : Option Text) (path : Path) {bytes : List UInt8}

/-- **A failure of the validation is the one finding**, unless its check is off. -/
theorem findings_of_validate_eq_error {e : Failure} (h : Extract.validate bytes = .error e) :
    (TurnsOff c e.checkId ∧ findings c now page path bytes = .ok []) ∨
      (¬ TurnsOff c e.checkId ∧
        ∃ d, d.checkId = e.checkId ∧ findings c now page path bytes = .ok [d]) := by
  have hoff := severityFor_eq_none_iff (c := c)
    (mem_checkIds_of_mem_validityChecks (checkId_of_validate_eq_error h))
  have hfindings : findings c now page path bytes =
      .ok (diagnosticOf? c now path (Utf8.decodeLossy bytes) e).toList := by
    rw [findings, h]
  rw [hfindings, diagnosticOf?]
  cases hseverity : c.severityFor e.checkId with
  | none => exact .inl ⟨hoff.mp hseverity, rfl⟩
  | some severity =>
    refine .inr ⟨fun hturned => ?_, _, rfl, rfl⟩
    rw [hoff.mpr hturned] at hseverity
    cases hseverity

/-- Without a page, or with the check for unused selectors turned off, nothing is found in a
valid stylesheet. -/
theorem findings_of_no_search {source : Text} (h : Extract.validate bytes = .ok source)
    (hnone : page = none ∨ TurnsOff c "unused_selector") :
    findings c now page path bytes = .ok [] := by
  rw [findings, h]
  rcases hnone with rfl | hoff
  · rfl
  · have hseverity : c.severityFor "unused_selector" = none :=
      (severityFor_eq_none_iff (by decide)).mpr hoff
    simp only [hseverity]

/-- With a page, and unless that check is turned off, what is found in a valid stylesheet is
the unused selectors in their order. -/
theorem findings_of_validate_eq_ok {source html : Text}
    (h : Extract.validate bytes = .ok source) (hon : ¬ TurnsOff c "unused_selector") :
    ∃ unused severity, Extract.unusedSelectors bytes html = .ok unused ∧
      c.severityFor "unused_selector" = some severity ∧
      findings c now (some html) path bytes =
        .ok (unused.map (unusedDiagnostic now path source severity)) := by
  obtain ⟨unused, hunused⟩ := exists_unusedSelectors h html
  cases hseverity : c.severityFor "unused_selector" with
  | none => exact absurd ((severityFor_eq_none_iff (by decide)).mp hseverity) hon
  | some severity =>
    refine ⟨unused, severity, hunused, rfl, ?_⟩
    rw [findings, h]
    simp only [hseverity, hunused]
    rfl

/-- What is found in a file is what is found in its bytes. -/
theorem checkFile_of_read {tree : Node} (hread : tree.read path = .ok bytes) :
    checkFile c tree now page path = findings c now page path bytes := by
  rw [checkFile, readFile, hread]
  rfl

/-- **A failure of a file that can be decoded is its one finding**, and what the finding tells of
its place is what the failure tells, and the source line of that number. -/
theorem exists_finding_of_failure {tree : Node} {e : Failure} (hread : tree.read path = .ok bytes)
    (h : Extract.validate bytes = .error e) (hdecode : ∀ fault, e ≠ .decode fault)
    (hon : ¬ TurnsOff c e.checkId) :
    ∃ t d, Utf8.decode bytes = .ok t ∧ Extract.validateText t = .error e ∧
      checkFile c tree now page path = .ok [d] ∧ d.checkId = e.checkId ∧ d.line = lineOf? t e ∧
      d.context = (lineOf? t e).bind (lineText? t) := by
  obtain ⟨t, ht, htext⟩ : ∃ t, Utf8.decode bytes = .ok t ∧ Extract.validateText t = .error e := by
    rcases Extract.bind_eq_error.mp h with hsheet | ⟨t, ht, htext⟩
    · obtain ⟨fault, -, he⟩ := Extract.decodeSheet_eq_error_iff.mp hsheet
      exact absurd he (hdecode fault)
    · exact ⟨t, Extract.decodeSheet_eq_ok_iff.mp ht, htext⟩
  obtain ⟨severity, hseverity⟩ := Option.ne_none_iff_exists'.mp fun hnone =>
    hon ((severityFor_eq_none_iff
      (mem_checkIds_of_mem_validityChecks (checkId_of_validate_eq_error h))).mp hnone)
  have hfindings : findings c now page path bytes = .ok (diagnosticOf? c now path t e).toList := by
    rw [findings, h]
    simp only [Utf8.decodeLossy_of_decode ht]
  rw [diagnosticOf?, hseverity] at hfindings
  exact ⟨t, _, ht, htext, (checkFile_of_read c now page path hread).trans hfindings, rfl, rfl, rfl⟩

end Findings

/-! ## Reports of a run on one file -/

/-- A report counts the errors among its diagnostics. -/
theorem error_counts_addAll (r : Report) (ds : List Diagnostic) :
    (r.addAll ds).counts.error = r.counts.error + ds.countP Diagnostic.isBlocking := by
  induction ds generalizing r with
  | nil => rfl
  | cons d ds ih =>
    have hcons : r.addAll (d :: ds) = (r.add d).addAll ds := rfl
    have hadd : (r.add d).counts.error =
        r.counts.error + if d.isBlocking then 1 else 0 := by
      rw [Report.add, Diagnostic.isBlocking, Severity.isBlocking]
      cases d.severity <;> rfl
    rw [hcons, ih, hadd, List.countP_cons]
    omega

/-- A run has failed if one of its diagnostics makes it fail. -/
theorem hasErrors_reportOn (a : Auditor) (now : Moment) (files : Nat) (ds : List Diagnostic) :
    (a.reportOn now files ds).sort.hasErrors = ds.any Diagnostic.isBlocking := by
  have hcount : (a.reportOn now files ds).sort.counts.error = ds.countP Diagnostic.isBlocking := by
    show ((Report.empty now).addAll ds).counts.error = _
    rw [error_counts_addAll]
    exact Nat.zero_add _
  rw [Report.hasErrors, hcount, Bool.eq_iff_iff, decide_eq_true_iff, List.countP_pos_iff,
    List.any_eq_true]

/-- Only what can be read is a file. -/
theorem isFile_of_read {tree : Node} {path : Path} {bytes : List UInt8}
    (h : tree.read path = .ok bytes) : tree.isFile path = true := by
  unfold Node.read at h
  unfold Node.isFile
  split at h
  next hfind => rw [hfind]
  next => cases h
  next => cases h

/-- Files that are named are selected, whatever the path filter says, if no patterns of the run
leave files out. -/
theorem select_of_isFile (f : PathFilter) {tree : Node} {o : Options} {paths : List Path}
    (hfiles : ∀ path ∈ paths, tree.isFile path = true) (hexclude : o.exclude = [])
    (hmost : o.most = none) : select f tree o paths = .ok paths := by
  have hshare : ∀ p ∈ paths, share (o.filterOf f) tree p = [p] := fun p hp =>
    share_of_isFile (hfiles p hp)
  have hall : filesAtAll (o.filterOf f) tree paths = .ok paths := by
    refine filesAtAll_eq_ok_iff.mpr ⟨fun p hp => ?_, ?_⟩
    · rw [hshare p hp, filesAt_of_isFile (hfiles p hp)]
    · rw [List.flatMap_congr hshare, List.flatMap_singleton']
  rw [select_of_filesAtAll hall, hexclude]
  show Except.ok (o.cut paths) = .ok paths
  rw [Options.cut_of_most_eq_none hmost]

/-- Files that are named are checked, whatever the path filter says, if no patterns of the run
leave files out and all of them can be read. -/
theorem checkPaths_of_found (a : Auditor) {tree : Node} {now : Moment} {o : Options}
    {files : List Path} {found : Path → List Diagnostic}
    (hfiles : ∀ p ∈ files, tree.isFile p = true) (hexclude : o.exclude = [])
    (hmost : o.most = none)
    (hfound : ∀ p ∈ files, checkFile a.config tree now o.page p = .ok (found p)) :
    a.checkPaths tree now o files =
      .ok (a.reportOn now files.length (files.flatMap found)).sort := by
  have houtcomes : files.map (fun p => Outcome.mk p (checkFile a.config tree now o.page p)) =
      files.map fun p => ⟨p, .ok (found p)⟩ :=
    List.map_congr_left fun p hp => by rw [hfound p hp]
  have hnone : firstFailure? (files.map fun p => ⟨p, .ok (found p)⟩) = none := by
    rw [firstFailure?, List.findSome?_map, List.findSome?_eq_none_iff]
    exact fun _ _ => rfl
  have hall : allFound (files.map fun p => ⟨p, .ok (found p)⟩) = files.flatMap found := by
    rw [allFound, List.flatMap_map]
    rfl
  rw [Auditor.checkPaths, select_of_isFile a.filter hfiles hexclude hmost]
  simp only [bind, Except.bind, houtcomes, gatherAll_of_firstFailure?_eq_none hnone, hall]
  rfl

/-- The report on one file that is named. -/
theorem checkPaths_of_isFile (a : Auditor) {tree : Node} (now : Moment) {o : Options}
    {path : Path} {ds : List Diagnostic} (hfile : tree.isFile path = true)
    (hexclude : o.exclude = []) (hmost : o.most = none)
    (hfound : checkFile a.config tree now o.page path = .ok ds) :
    a.checkPaths tree now o [path] = .ok (a.reportOn now 1 ds).sort := by
  have hfiles : ∀ p ∈ [path], tree.isFile p = true := by simpa using hfile
  have hchecked : ∀ p ∈ [path],
      checkFile a.config tree now o.page p = .ok ((fun _ => ds) p) := by simpa using hfound
  rw [checkPaths_of_found a hfiles hexclude hmost hchecked, List.flatMap_singleton]
  rfl

/-! ## Exit codes -/

/-- The words that name a file on a command line: a name that looks like an option has to stand
behind two dashes. -/
def operand (path : Path) : List Text :=
  if looksLikeOption path.text then [['-', '-'], path.text] else [path.text]

/-- A command that takes a path in its first place is given the one that is named. -/
theorem readFrom_operand {grammar : Grammar} {name : String} {path : Path}
    (hcommands : grammar.commands = []) (hrequired : grammar.required ≤ 1)
    (hvalue : (grammar.values[0]? <|> grammar.further) = some .path) (hne : path.text ≠ []) :
    readFrom grammar name {} (operand path) = .ok [(name, { values := [path.text] })] := by
  have haccepts : ValueKind.path.accepts path.text = true := by
    rw [ValueKind.accepts, List.isEmpty_eq_false_iff.mpr hne]
    rfl
  have hadd : ({} : Given).addValue grammar path.text = .ok { values := [path.text] } := by
    unfold Given.addValue
    simp only [List.length_nil, hvalue, haccepts, if_true]
    rfl
  have hfinish : ({ values := [path.text] } : Given).finish grammar =
      .ok { values := [path.text] } := by
    rw [Given.finish, hcommands, if_pos (by simpa using hrequired)]
  unfold operand
  by_cases hoption : looksLikeOption path.text = true
  · rw [if_pos hoption, readFrom.eq_def]
    simp only [if_true, List.foldlM_cons, List.foldlM_nil, hadd]
    show (do return [(name, ← ({ values := [path.text] } : Given).finish grammar)]) = _
    rw [hfinish]
    rfl
  · have hdashes : path.text ≠ ['-', '-'] := by
      intro h
      rw [h] at hoption
      exact hoption rfl
    have hnil : readFrom grammar name { values := [path.text] } [] =
        .ok [(name, { values := [path.text] })] := by
      rw [readFrom, hfinish]
      rfl
    rw [if_neg hoption, readFrom.eq_def]
    simp only [if_neg hdashes, if_neg hoption, hcommands, hadd, List.isEmpty_nil, if_true]
    exact hnil

section Commands

variable {tree : Node} {path : Path} {bytes : List UInt8}

theorem text_ne_nil_of_read (h : tree.read path = .ok bytes) : path.text ≠ [] := by
  intro hnil
  rw [Node.read, Node.find, hnil] at h
  cases h

/-- The words that name a command and a file are read as that command and that file. -/
theorem read_command {command : Text} (grammar : Grammar) (hdashes : command ≠ ['-', '-'])
    (hoption : looksLikeOption command = false)
    (hlookup : programGrammar.commands.lookup (String.ofList command) = some grammar)
    (hcommands : grammar.commands = []) (hrequired : grammar.required ≤ 1)
    (hvalue : (grammar.values[0]? <|> grammar.further) = some .path) (hne : path.text ≠ []) :
    programGrammar.read (command :: operand path) =
      .ok [("", {}), (String.ofList command, { values := [path.text] })] := by
  rw [Grammar.read, readFrom.eq_def]
  simp only [hdashes, hoption, hlookup, if_false, Bool.false_eq_true,
    readFrom_operand hcommands hrequired hvalue hne]
  rfl

theorem ofWords_validate (hne : path.text ≠ []) :
    Invocation.ofWords ("validate".toList :: operand path) =
      .ok { command := .validate path, config := none, colors := true } := by
  rw [Invocation.ofWords,
    read_command (commandGrammar [.path] []) (by decide) rfl rfl rfl (by decide) rfl hne]
  rfl

theorem ofWords_check (hne : path.text ≠ []) :
    Invocation.ofWords ("check".toList :: operand path) =
      .ok { command := .check (.ofGiven { values := [path.text] }), config := none,
            colors := true } := by
  rw [Invocation.ofWords,
    read_command checkGrammar (by decide) rfl rfl rfl (by decide) rfl hne]
  rfl

/-- The verdict on a file that can be read. -/
theorem exists_answerValidate (hread : tree.read path = .ok bytes) :
    ∃ output, answerValidate tree path =
      .ok { exitCode := if (Extract.validate bytes).isOk then 0 else 1, output := output } := by
  have hfile : readFile tree path = .ok bytes := by rw [readFile, hread]; rfl
  rw [answerValidate, hfile]
  simp only [bind, Except.bind]
  cases Extract.validate bytes with
  | ok source => exact ⟨_, rfl⟩
  | error e => exact ⟨_, rfl⟩

/-- **The command `validate` ends with zero if the file is valid, else with one.** -/
theorem exitCode_validate (clock : Clock) (hread : tree.read path = .ok bytes) :
    (answer tree clock ("validate".toList :: operand path)).exitCode =
      if (Extract.validate bytes).isOk then 0 else 1 := by
  obtain ⟨output, hanswer⟩ := exists_answerValidate hread
  rw [answer, ofWords_validate (text_ne_nil_of_read hread)]
  simp only [Invocation.answer?, hanswer]

/-- The standard configuration can be used. -/
theorem exists_create_standard :
    ∃ auditor, Auditor.create .standard = .ok auditor ∧ auditor.config = .standard := by
  have hvalid : Config.standard.validate.isOk = true := by decide +kernel
  have hfilter : (PathFilter.ofPatterns Config.standard.paths.patterns
      (Auditor.ignoreName? Config.standard.paths)).isOk = true := by decide +kernel
  unfold Auditor.create Auditor.ofConfig
  cases hvalidate : Config.standard.validate with
  | error e =>
    rw [hvalidate] at hvalid
    cases hvalid
  | ok =>
    cases hof : PathFilter.ofPatterns Config.standard.paths.patterns
        (Auditor.ignoreName? Config.standard.paths) with
    | error e =>
      rw [hof] at hfilter
      cases hfilter
    | ok filter => exact ⟨_, rfl, rfl⟩

/-- With the standard configuration every failure of the validation is an error. -/
theorem severityFor_standard {id : String} (h : id ∈ validityChecks) :
    Config.standard.severityFor id = some .error :=
  (by decide : ∀ id ∈ validityChecks, Config.standard.severityFor id = some .error) id h

/-- With the standard configuration and without a page, a file that is not valid has a finding
that makes a run fail, and a valid one has no finding. -/
theorem exists_findings_standard (now : Moment) (path : Path) (bytes : List UInt8) :
    ∃ ds, findings .standard now none path bytes = .ok ds ∧
      ds.any Diagnostic.isBlocking = !(Extract.validate bytes).isOk := by
  cases hvalidate : Extract.validate bytes with
  | ok source => exact ⟨[], findings_of_no_search _ _ _ _ hvalidate (.inl rfl), rfl⟩
  | error e =>
    have hseverity := severityFor_standard (checkId_of_validate_eq_error hvalidate)
    rw [findings, hvalidate]
    simp only [diagnosticOf?, hseverity]
    exact ⟨_, rfl, rfl⟩

/-- A check of one file without a page and without patterns ends with one if a finding makes
the run fail. -/
theorem exists_answerCheck (clock : Clock) {i : Invocation} {r : CheckRequest}
    {auditor : Auditor} {ds : List Diagnostic} (hconfig : configFor tree i.config = .ok .standard)
    (hcreate : Auditor.create .standard = .ok auditor) (hfile : tree.isFile path = true)
    (hpaths : r.paths = [path]) (hpage : r.page = none) (hexclude : r.exclude = [])
    (hfound : checkFile auditor.config tree clock.now none path = .ok ds) :
    ∃ output, answerCheck tree clock i r =
      .ok { exitCode := if ds.any Diagnostic.isBlocking then 1 else 0, output := output } := by
  have hreport : ∀ parallel failFast ignoreFiles,
      auditor.checkPaths tree clock.now
        { parallel := parallel, failFast := failFast, exclude := [],
          ignoreFiles := ignoreFiles, page := none } [path] =
      .ok (auditor.reportOn clock.now 1 ds).sort := fun _ _ _ =>
    checkPaths_of_isFile auditor clock.now hfile rfl rfl hfound
  unfold answerCheck
  rw [hconfig, hpage, hpaths, hexclude]
  simp only [bind, Except.bind, Option.mapM_none, pure, Except.pure, hcreate, Option.map_none,
    List.isEmpty_cons, Bool.false_eq_true, if_false, hreport, hasErrors_reportOn]
  exact ⟨_, rfl⟩

/-- With the standard configuration a check of one file ends with zero if the file is valid, else
with one, whatever is shown of it. -/
theorem exists_answerCheck_standard (clock : Clock) {i : Invocation} {r : CheckRequest}
    (hread : tree.read path = .ok bytes) (hconfig : configFor tree i.config = .ok .standard)
    (hpaths : r.paths = [path]) (hpage : r.page = none) (hexclude : r.exclude = []) :
    ∃ output, answerCheck tree clock i r =
      .ok { exitCode := if (Extract.validate bytes).isOk then 0 else 1, output := output } := by
  obtain ⟨auditor, hcreate, hstandard⟩ := exists_create_standard
  obtain ⟨ds, hfindings, hblocking⟩ := exists_findings_standard clock.now path bytes
  have hfound : checkFile auditor.config tree clock.now none path = .ok ds := by
    rw [hstandard, checkFile_of_read _ _ _ _ hread, hfindings]
  obtain ⟨output, hanswer⟩ := exists_answerCheck clock hconfig hcreate (isFile_of_read hread)
    hpaths hpage hexclude hfound
  refine ⟨output, hanswer.trans ?_⟩
  rw [hblocking]
  cases Extract.validate bytes <;> rfl

/-- **With the standard configuration the command `check`, too, ends with zero if the file is
valid, else with one.** -/
theorem exitCode_check (clock : Clock) (hread : tree.read path = .ok bytes)
    (hconfig : configFor tree none = .ok .standard) :
    (answer tree clock ("check".toList :: operand path)).exitCode =
      if (Extract.validate bytes).isOk then 0 else 1 := by
  obtain ⟨output, hanswer⟩ := exists_answerCheck_standard clock
    (i := { command := .check (.ofGiven { values := [path.text] }), config := none,
            colors := true })
    (r := .ofGiven { values := [path.text] }) hread hconfig rfl rfl rfl
  rw [answer, ofWords_check (text_ne_nil_of_read hread)]
  simp only [Invocation.answer?, hanswer]

end Commands

/-! ## The outcome of a check -/

/-- How the outcome of checking a file follows from the verdict on its bytes. -/
structure FollowsVerdict (c : Config) (now : Moment) (page : Option Text) (path : Path)
    (bytes : List UInt8) (outcome : Except Failure (List Diagnostic)) : Prop where
  /-- Checking never fails. -/
  answered : ∃ ds, outcome = .ok ds
  /-- A failure of the validation belongs to a check that a configuration can turn off. -/
  classified : ∀ e, Extract.validate bytes = .error e →
    e.checkId ∈ validityChecks ∧ e.checkId ≠ "internal"
  /-- It is the one finding, or its check is off and there is none. -/
  reported : ∀ e, Extract.validate bytes = .error e →
    (TurnsOff c e.checkId ∧ outcome = .ok []) ∨
      (¬ TurnsOff c e.checkId ∧ ∃ d, d.checkId = e.checkId ∧ outcome = .ok [d])
  /-- In a valid stylesheet nothing is found if there is nothing to search for. -/
  silent : ∀ source, Extract.validate bytes = .ok source →
    page = none ∨ TurnsOff c "unused_selector" → outcome = .ok []
  /-- Otherwise the findings are the unused selectors in their order. -/
  searched : ∀ source html, Extract.validate bytes = .ok source → page = some html →
    ¬ TurnsOff c "unused_selector" →
    ∃ unused severity, Extract.unusedSelectors bytes html = .ok unused ∧
      c.severityFor "unused_selector" = some severity ∧
      outcome = .ok (unused.map (unusedDiagnostic now path source severity))

theorem followsVerdict_findings (c : Config) (now : Moment) (page : Option Text) (path : Path)
    (bytes : List UInt8) :
    FollowsVerdict c now page path bytes (findings c now page path bytes) where
  answered := by
    cases hvalidate : Extract.validate bytes with
    | error e =>
      rcases findings_of_validate_eq_error c now page path hvalidate with ⟨-, h⟩ | ⟨-, d, -, h⟩
      · exact ⟨_, h⟩
      · exact ⟨_, h⟩
    | ok source =>
      by_cases hnone : page = none ∨ TurnsOff c "unused_selector"
      · exact ⟨_, findings_of_no_search c now page path hvalidate hnone⟩
      · obtain ⟨hpage, hon⟩ := not_or.mp hnone
        obtain ⟨html, rfl⟩ := Option.ne_none_iff_exists'.mp hpage
        obtain ⟨unused, severity, -, -, h⟩ := findings_of_validate_eq_ok c now path hvalidate hon
        exact ⟨_, h⟩
  classified e he := by
    have hid := checkId_of_validate_eq_error he
    refine ⟨hid, fun hinternal => ?_⟩
    rw [hinternal] at hid
    exact absurd hid (by decide)
  reported e he := findings_of_validate_eq_error c now page path he
  silent source hsource hnone := findings_of_no_search c now page path hsource hnone
  searched source html hsource hpage hon := by
    subst hpage
    exact findings_of_validate_eq_ok c now path hsource hon

/-- A file that can be read can be checked. -/
theorem exists_checkFile {tree : Node} {path : Path} {bytes : List UInt8}
    (hread : tree.read path = .ok bytes) (c : Config) (now : Moment) (page : Option Text) :
    ∃ ds, checkFile c tree now page path = .ok ds := by
  rw [checkFile_of_read c now page path hread]
  exact (followsVerdict_findings c now page path bytes).answered

/-- **Checking a file that can be read is passing a verdict on its bytes.**  Under every
configuration and with any page there is an outcome: the failure of the validation, unless its
check is off, or else the unused selectors, if they are looked for.  Under the standard
configuration the commands `validate` and `check` therefore end with the same code. -/
theorem check_judges_file {tree : Node} {path : Path} {bytes : List UInt8}
    (hread : tree.read path = .ok bytes) :
    (∀ c now page, FollowsVerdict c now page path bytes (checkFile c tree now page path)) ∧
      ∀ clock, configFor tree none = .ok .standard →
        (answer tree clock ("validate".toList :: operand path)).exitCode =
          (answer tree clock ("check".toList :: operand path)).exitCode := by
  refine ⟨fun c now page => ?_, fun clock hconfig => ?_⟩
  · rw [checkFile_of_read c now page path hread]
    exact followsVerdict_findings c now page path bytes
  · rw [exitCode_validate clock hread, exitCode_check clock hread hconfig]

/-- A directory with one stylesheet, which has a closing brace too many, and no settings. -/
def oneBrokenFile : Node := .folder [("a.css".toList, .file (Utf8.encode ['\x7d']))]

/-- The stylesheet with a brace too many has one finding, and either command ends with the
same code. -/
theorem check_judges_file_oneBrokenFile :
    (∃ d, d.checkId = "unbalanced_braces" ∧
        checkFile .standard oneBrokenFile default none ⟨"a.css".toList⟩ = .ok [d]) ∧
      (answer oneBrokenFile ⟨default, 0⟩ ("validate".toList :: operand ⟨"a.css".toList⟩)).exitCode =
        (answer oneBrokenFile ⟨default, 0⟩
          ("check".toList :: operand ⟨"a.css".toList⟩)).exitCode := by
  have hread : oneBrokenFile.read ⟨"a.css".toList⟩ = .ok (Utf8.encode ['\x7d']) := rfl
  have hconfig : configFor oneBrokenFile none = .ok .standard := rfl
  have hvalidate : Extract.validate (Utf8.encode ['\x7d']) = .error (.unbalancedBraces 0 1) :=
    validate_of_readSheet (Extract.readSheet_eq_error_iff.mpr
      (.braces (Utf8.decode_encode ['\x7d']) (by decide)))
  obtain ⟨houtcome, hexit⟩ := check_judges_file hread
  refine ⟨?_, hexit ⟨default, 0⟩ hconfig⟩
  rcases (houtcome .standard default none).reported _ hvalidate with ⟨hoff, -⟩ | ⟨-, d, hid, hd⟩
  · have hseverity := (severityFor_eq_none_iff (by decide)).mpr hoff
    rw [severityFor_standard (by decide)] at hseverity
    cases hseverity
  · exact ⟨d, hid, hd⟩

end StyleAudit.Audit
