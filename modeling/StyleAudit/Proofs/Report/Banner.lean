import StyleAudit.Proofs.Report.Tallies

/-!
# When the report for a person says that nothing was found

The first line of the report for a person is chosen by what is shown: if nothing is left of the
diagnostics, it says that there are no problems.  The last line, and the code that a check ends
with, are read from the counts, and these are of all diagnostics.  So the two can contradict each
other.

What is shown leaves out diagnostics in two ways.  A limit to the severity never leaves out an
error, as nothing is worse (`admits_of_isBlocking`).  A limit to the number keeps the beginning of
the list, so it leaves out all errors together with everything else if it is zero, and else there
is something to show whenever there is an error (`shown_eq_nil_iff_of_hasErrors`).

The main result is `saysAllClear_with_errors_iff`: a report says that nothing was found although
there are errors, and a check says so and ends with one, if and only if none of the diagnostics are
to be shown.
-/

namespace StyleAudit.Report

/-! ## The first line -/

/-- The line that says that nothing was found. -/
def View.allClear (v : View) : String := "✅ " ++ v.paint "32" "No stylesheet problems found" ++ "\n"

/-- Whether a text begins with the line that says that nothing was found. -/
def View.SaysAllClear (v : View) (s : String) : Prop := v.allClear.toList <+: s.toList

theorem toList_allClear (v : View) : ∃ rest, v.allClear.toList = '✅' :: rest :=
  ⟨" ".toList ++ (v.paint "32" "No stylesheet problems found").toList ++ ['\n'], by
    simp [View.allClear]⟩

theorem not_saysAllClear_of_head {v : View} {s : String} (h : s.toList.head? ≠ some '✅') :
    ¬ v.SaysAllClear s := by
  obtain ⟨rest, hrest⟩ := toList_allClear v
  rintro ⟨tail, htail⟩
  rw [← htail, hrest] at h
  exact h rfl

/-- The first line is this one if and only if nothing is shown, whatever stands below it. -/
theorem saysAllClear_bannerText_iff (v : View) (r : Report) (below : String) :
    v.SaysAllClear (bannerText v r ++ below) ↔ v.shown r = [] := by
  constructor
  · intro h
    by_contra hshown
    -- The other two first lines begin with another sign.
    refine not_saysAllClear_of_head ?_ h
    rw [bannerText, if_neg (by simpa using hshown)]
    split <;> simp
  · intro h
    rw [bannerText, if_pos (by simpa using h), View.SaysAllClear, String.toList_append]
    exact List.prefix_append _ _

theorem human_eq (v : View) (r : Report) :
    human v r = bannerText v r ++
      (String.join ((groupByFile (v.shown r)).map (groupText v)) ++ summaryText v r) :=
  String.append_assoc

/-- **The report for a person says that nothing was found if and only if nothing is shown.** -/
theorem saysAllClear_human_iff (v : View) (r : Report) :
    v.SaysAllClear (r.render v .human) ↔ v.shown r = [] := by
  rw [render, human_eq]
  exact saysAllClear_bannerText_iff v r _

/-! ## What is left out -/

/-- Every view admits an error, the worst there is. -/
theorem admits_of_isBlocking (v : View) {d : Diagnostic} (h : d.isBlocking = true) :
    v.admits d = true := by
  have herror : d.severity = .error := eq_of_beq h
  unfold View.admits
  cases v.mildest with
  | none => rfl
  | some s =>
    rw [herror]
    cases s <;> rfl

theorem shown_eq_nil_iff (v : View) (r : Report) :
    v.shown r = [] ↔ v.most = some 0 ∨ ∀ d ∈ r.diagnostics, v.admits d = false := by
  have hnone : r.diagnostics.filter v.admits = [] ↔ ∀ d ∈ r.diagnostics, v.admits d = false := by
    simp only [List.filter_eq_nil_iff, Bool.not_eq_true]
  unfold View.shown
  cases v.most with
  | none => simp [hnone]
  | some n => simp only [List.take_eq_nil_iff, hnone, Option.some.injEq]

/-- If there are errors, something is shown unless the limit to the number is zero. -/
theorem shown_eq_nil_iff_of_hasErrors (v : View) {r : Report} (hmade : r.Made)
    (h : r.hasErrors = true) : v.shown r = [] ↔ v.most = some 0 := by
  obtain ⟨d, hd, hblocking⟩ := hmade.tallies.hasErrors.mp h
  have hadmitted : ¬ ∀ d ∈ r.diagnostics, v.admits d = false := fun hall => by
    have hd := hall d hd
    rw [admits_of_isBlocking v hblocking] at hd
    cases hd
  rw [shown_eq_nil_iff, or_iff_left hadmitted]

end Report

/-! ## A check that finds errors and says that nothing was found -/

namespace CommandLine

open Report

section Answers

variable {tree : Node} {clock : Clock} {words : List Text} {i : Invocation} {r : CheckRequest}

/-- The view that a request to check files asks for. -/
def viewOf (i : Invocation) (r : CheckRequest) : View :=
  { colors := i.colors, most := r.most, mildest := r.mildest }

/-- **A check says to a person that nothing was found if and only if there is a report and nothing
of it is shown.** -/
theorem saysAllClear_answer_iff (hwords : Invocation.ofWords words = .ok i)
    (hcommand : i.command = .check r) (hformat : r.format = .human) :
    (viewOf i r).SaysAllClear (answer tree clock words).output ↔
      ∃ report, reportFor tree clock.now i.config r = .ok report ∧
        (viewOf i r).shown report = [] := by
  rw [answer, hwords]
  simp only [Invocation.answer?, hcommand, answerCheck_eq, hformat]
  cases reportFor tree clock.now i.config r with
  | error e =>
    -- Without a report nothing is written to the standard output.
    refine iff_of_false (not_saysAllClear_of_head ?_) (by simp)
    simp [Except.map, Answer.ofFailure]
  | ok report =>
    have hshown : (viewOf i r).shown { report with elapsed := clock.elapsed } =
        (viewOf i r).shown report := rfl
    simp only [Except.map, Except.ok.injEq, exists_eq_left', ← hshown, line, render, human_eq,
      String.append_assoc]
    exact saysAllClear_bannerText_iff _ _ _

/-- Such a check ends with one if and only if the report has errors. -/
theorem exitCode_eq_one_iff (hwords : Invocation.ofWords words = .ok i)
    (hcommand : i.command = .check r) {report : Report}
    (hreport : reportFor tree clock.now i.config r = .ok report) :
    (answer tree clock words).exitCode = 1 ↔ report.hasErrors = true := by
  rw [answer, hwords]
  simp only [Invocation.answer?, hcommand, answerCheck_eq, hreport, Except.map]
  cases report.hasErrors <;> simp

end Answers

/-- **A report says that nothing was found although there are errors if and only if none of the
diagnostics are to be shown.**  It says so if nothing is shown, whatever was found: because the
limit to the number is zero, or because all diagnostics are too mild.  Errors are never too mild,
so the limit is what remains, for a report and for a check that ends with one. -/
theorem saysAllClear_with_errors_iff (v : View) :
    (∀ r : Report, v.SaysAllClear (r.render v .human) ↔
      v.most = some 0 ∨ ∀ d ∈ r.diagnostics, v.admits d = false) ∧
    (∀ r : Report, r.Made → (v.SaysAllClear (r.render v .human) ∧ r.hasErrors = true ↔
      v.most = some 0 ∧ r.hasErrors = true)) ∧
    ∀ (tree : Node) (clock : Clock) (words : List Text) (i : Invocation) (r : CheckRequest),
      Invocation.ofWords words = .ok i → i.command = .check r → r.format = .human →
      viewOf i r = v →
        (v.SaysAllClear (answer tree clock words).output ∧
            (answer tree clock words).exitCode = 1 ↔
          v.most = some 0 ∧ ∃ report, reportFor tree clock.now i.config r = .ok report ∧
            report.hasErrors = true) := by
  refine ⟨fun r => ?_, fun r hmade => ?_, ?_⟩
  · rw [saysAllClear_human_iff, shown_eq_nil_iff]
  · rw [saysAllClear_human_iff]
    exact and_congr_left fun herrors => shown_eq_nil_iff_of_hasErrors v hmade herrors
  · intro tree clock words i r hwords hcommand hformat hview
    rw [← hview, saysAllClear_answer_iff hwords hcommand hformat]
    constructor
    · rintro ⟨⟨report, hreport, hshown⟩, hcode⟩
      have herrors := (exitCode_eq_one_iff hwords hcommand hreport).mp hcode
      exact ⟨(shown_eq_nil_iff_of_hasErrors _ (made_reportFor hreport) herrors).mp hshown, report,
        hreport, herrors⟩
    · rintro ⟨hmost, report, hreport, herrors⟩
      exact ⟨⟨report, hreport, (shown_eq_nil_iff _ _).mpr (.inl hmost)⟩,
        (exitCode_eq_one_iff hwords hcommand hreport).mpr herrors⟩

/-! ## A check that shows nothing of what it finds -/

/-- The words that ask for a check of one file, with nothing shown of what is found. -/
def showNothingWords : List Text :=
  ["check".toList, "--max-diagnostics".toList, "0".toList, "a.css".toList]

/-- What they give to the command. -/
def showNothingGiven : Given :=
  { options := [("max-diagnostics", ['0'])], values := ["a.css".toList] }

/-- What they ask for. -/
def showNothing : Invocation :=
  { command := .check (.ofGiven showNothingGiven), config := none, colors := true }

theorem readFrom_showNothing :
    readFrom checkGrammar "check" {} ["--max-diagnostics".toList, "0".toList, "a.css".toList] =
      .ok [("check", showNothingGiven)] := by
  have hoption : readOption checkGrammar {} "--max-diagnostics".toList =
      .ok ({}, some ⟨"max-diagnostics", none, .value .number⟩) := rfl
  have hnumber : ({} : Given).give ⟨"max-diagnostics", none, .value .number⟩ "0".toList =
      .ok { options := [("max-diagnostics", ['0'])] } := rfl
  have hfile : ({ options := [("max-diagnostics", ['0'])] } : Given).addValue checkGrammar
      "a.css".toList = .ok showNothingGiven := rfl
  have hdone : readFrom checkGrammar "check" showNothingGiven [] =
      .ok [("check", showNothingGiven)] := by
    rw [readFrom]
    rfl
  have hvalue : readFrom checkGrammar "check" { options := [("max-diagnostics", ['0'])] }
      ["a.css".toList] = .ok [("check", showNothingGiven)] := by
    rw [readFrom.eq_def]
    dsimp only
    rw [if_neg (by decide), if_neg (by decide), if_pos (by decide), hfile]
    exact hdone
  rw [readFrom.eq_def]
  dsimp only
  rw [if_neg (by decide), if_pos (by decide), hoption]
  dsimp only
  rw [if_neg (by decide), hnumber]
  exact hvalue

theorem ofWords_showNothing : Invocation.ofWords showNothingWords = .ok showNothing := by
  have hread : programGrammar.read showNothingWords =
      .ok [("", {}), ("check", showNothingGiven)] := by
    have hcommand : programGrammar.commands.lookup (String.ofList "check".toList) =
        some checkGrammar := rfl
    rw [showNothingWords, Grammar.read, readFrom.eq_def]
    dsimp only
    rw [if_neg (by decide), if_neg (by decide), if_neg (by decide), hcommand]
    dsimp only
    rw [String.ofList_toList, readFrom_showNothing]
    rfl
  rw [Invocation.ofWords, hread]
  rfl

/-- A check of the stylesheet with a brace too many comes to a report with an error. -/
theorem exists_reportFor_showNothing :
    ∃ report, reportFor Audit.oneBrokenFile default none (.ofGiven showNothingGiven) = .ok report ∧
      report.hasErrors = true := by
  have hread : Audit.oneBrokenFile.read ⟨"a.css".toList⟩ = .ok (Utf8.encode ['\x7d']) := rfl
  have hvalidate : Extract.validate (Utf8.encode ['\x7d']) = .error (.unbalancedBraces 0 1) :=
    Audit.validate_of_readSheet (Extract.readSheet_eq_error_iff.mpr
      (.braces (Utf8.decode_encode ['\x7d']) (by decide)))
  obtain ⟨output, hanswer⟩ := Audit.exists_answerCheck_standard ⟨default, 0⟩ (i := showNothing)
    (r := .ofGiven showNothingGiven) hread rfl rfl rfl rfl
  rw [answerCheck_eq, hvalidate] at hanswer
  obtain ⟨report, hreport, h⟩ := Outcomes.map_eq_ok_iff.mp hanswer
  refine ⟨report, hreport, ?_⟩
  cases herrors : report.hasErrors with
  | true => rfl
  | false => simp [herrors, Except.isOk, Except.toBool] at h

/-- A report with an error says that nothing was found if nothing of it is shown, and so does the
check, which ends with one. -/
theorem saysAllClear_with_errors_showNothing :
    let v : View := { most := some 0 }
    v.SaysAllClear (warningThenError.render v .human) ∧ warningThenError.hasErrors = true ∧
      v.SaysAllClear (answer Audit.oneBrokenFile ⟨default, 0⟩ showNothingWords).output ∧
      (answer Audit.oneBrokenFile ⟨default, 0⟩ showNothingWords).exitCode = 1 := by
  intro v
  obtain ⟨-, hmade, hchecks⟩ := saysAllClear_with_errors_iff v
  have hreport := (hmade warningThenError (((Report.Made.empty default).add _).add _)).mpr
    ⟨rfl, rfl⟩
  exact ⟨hreport.1, hreport.2, (hchecks _ _ _ _ _ ofWords_showNothing rfl rfl rfl).mpr
    ⟨rfl, exists_reportFor_showNothing⟩⟩

/-- **A report with errors can say that nothing was found**, and so can a check that ends with one:
when nothing is to be shown. -/
theorem exists_allClear_with_errors :
    ¬ (∀ (v : View) (r : Report), r.Made → v.SaysAllClear (r.render v .human) →
        r.hasErrors = false) ∧
      ¬ ∀ (tree : Node) (clock : Clock) (words : List Text) (i : Invocation) (r : CheckRequest),
        Invocation.ofWords words = .ok i → i.command = .check r → r.format = .human →
          (viewOf i r).SaysAllClear (answer tree clock words).output →
            (answer tree clock words).exitCode ≠ 1 := by
  obtain ⟨report, hreport, herrors⟩ := exists_reportFor_showNothing
  have hshown : (viewOf showNothing (.ofGiven showNothingGiven)).shown report = [] :=
    (shown_eq_nil_iff _ _).mpr (.inl rfl)
  have hcode : (answer Audit.oneBrokenFile ⟨default, 0⟩ showNothingWords).exitCode = 1 ↔
      report.hasErrors = true := exitCode_eq_one_iff ofWords_showNothing rfl hreport
  constructor
  · intro hreports
    have hclear := hreports _ report (made_reportFor hreport)
      ((saysAllClear_human_iff _ report).mpr hshown)
    rw [herrors] at hclear
    cases hclear
  · intro hchecks
    refine hchecks Audit.oneBrokenFile ⟨default, 0⟩ showNothingWords showNothing _
      ofWords_showNothing rfl rfl ?_ (hcode.mpr herrors)
    exact (saysAllClear_answer_iff ofWords_showNothing rfl rfl).mpr ⟨report, hreport, hshown⟩

end CommandLine
end StyleAudit
