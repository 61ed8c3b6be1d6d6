import StyleAudit.Proofs.Audit.Locating
import StyleAudit.Proofs.Audit.Verdict
import StyleAudit.Proofs.Css.GrammarLines
import StyleAudit.Proofs.Extract.ErrorLines

/-!
# Which line is shown for a fault

A parse failure has the number of the line that its fault stands in, and the grammar counted it.
The finding shows the source line with this number, but source lines end at line feeds only.

Two things can go wrong.  In front of the fault a line may have ended otherwise than at a line feed;
then the number is too high for a source line, and another line is shown, or none.  Or the line
itself ends so; then the source line goes on behind it, and what is shown is more than the line.
Besides, there is no source line behind the last line feed, where a fault can stand if the text ends
in the middle of a rule.

`finding_of_parseFailure` says so exactly.  The source line in which the fault stands is shown
exactly if it is one and no line ends otherwise in front of the fault; and what is shown is the line
of the fault, trimmed, if only blanks stand behind it in its source line.
-/

namespace StyleAudit.Audit

open Css Extract
open Text (splitLines trim)

/-- **What a finding shows for a fault behind the text `front`.** -/
structure ShownByNumber (t front : Text) (d : Diagnostic) : Prop where
  line_eq : d.line = some (lineEnds front + 1)
  /-- The source line in which the fault stands. -/
  shows_iff : Shows t (front.count '\n') d ↔
    looseEnds front = 0 ∧ front.count '\n' < t.sourceLines.length
  /-- The line of the grammar in which it stands, and what its source line has behind that. -/
  context_iff : looseEnds front = 0 → ∃ line behind,
    (grammarLines t)[lineEnds front]? = some line ∧
    (splitLines t)[lineEnds front]? = some (line ++ behind) ∧
    (d.context = some (String.ofList (trim line)) ↔
      lineEnds front < t.sourceLines.length ∧ ∀ c ∈ behind, isBlank c = true) ∧
    (looseEnds t = 0 → ∀ c ∈ behind, isBlank c = true)

theorem lineText?_succ (t : Text) (k : Nat) :
    lineText? t (k + 1) = t.sourceLines[k]?.map fun l => String.ofList (trim l) := rfl

theorem shownByNumber {t front : Text} {d : Diagnostic} (hfront : front <+: t)
    (hline : d.line = some (lineEnds front + 1))
    (hcontext : d.context = lineText? t (lineEnds front + 1)) : ShownByNumber t front d where
  line_eq := hline
  shows_iff := by
    have hcount := lineEnds_eq_count_add front
    constructor
    · rintro ⟨hk, l, hl, -⟩
      rw [hline, Option.some.injEq] at hk
      exact ⟨by omega, (List.getElem?_eq_some_iff.mp hl).1⟩
    · rintro ⟨hloose, hlt⟩
      rw [hloose, Nat.add_zero] at hcount
      rw [hcount] at hline hcontext
      refine ⟨hline, _, List.getElem?_eq_getElem hlt, ?_⟩
      rw [hcontext, lineText?_succ, List.getElem?_eq_getElem hlt, Option.map_some]
  context_iff := by
    intro hloose
    obtain ⟨rest, rfl⟩ := hfront
    obtain ⟨line, behind, hgrammar, hstretch, hbehind⟩ := exists_line_of_looseEnds hloose rest
    refine ⟨line, behind, hgrammar, hstretch, ?_, fun hall c hc => ?_⟩
    case refine_2 =>
      rw [hbehind hall c hc]
      decide
    rw [hcontext, lineText?_succ]
    cases hsource : (front ++ rest).sourceLines[lineEnds front]? with
    | none =>
      refine iff_of_false (fun h => by cases h) fun h => ?_
      exact Nat.not_lt_of_le (List.getElem?_eq_none_iff.mp hsource) h.1
    | some l =>
      have hlt := (List.getElem?_eq_some_iff.mp hsource).1
      rw [Option.map_some, Option.some.injEq, String.ofList_inj,
        Text.trim_sourceLine hsource hstretch, Text.trim_append_eq_iff, and_iff_right hlt]

/-- **Which line is shown for a fault.**  Where the validation of a file fails with a parse failure
in line `n` and the check is on, there is one finding, and a stretch `front` of the file that the
fault stands behind.  Line `n` is counted by the grammar, and what the finding shows is told by
`front`. -/
theorem finding_of_parseFailure {c : Config} {tree : Node} {path : Path} {bytes : List UInt8}
    {context : Option String} {message : String} {n column : Nat} (now : Moment)
    (page : Option Text) (hread : tree.read path = .ok bytes)
    (hvalidate : validate bytes = .error (.parse context message n column))
    (hon : ¬ TurnsOff c "parse_error") :
    ∃ t d front, Utf8.decode bytes = .ok t ∧ checkFile c tree now page path = .ok [d] ∧
      d.checkId = "parse_error" ∧ FoundBehind t context front ∧ n = lineEnds front + 1 ∧
      ShownByNumber t front d := by
  obtain ⟨t, d, hdecode, htext, hcheck, hcheckId, hline, hcontext⟩ :=
    exists_finding_of_failure c now page path hread hvalidate (fun _ => Failure.noConfusion) hon
  rw [← validate_encode] at htext
  obtain ⟨front, hfront, rfl⟩ := exists_foundBehind htext
  rw [Nat.add_comm] at hline hcontext
  exact ⟨t, d, front, hdecode, hcheck, hcheckId, hfront, Nat.add_comm _ _,
    shownByNumber hfront.prefix_text hline hcontext⟩

/-- A stylesheet that ends in the middle of a rule. -/
def openEnd : Text := "a \x7b\x7d\r\nb".toList

/-- The stylesheet in a directory without settings. -/
def openEndFile : Node := .folder [("a.css".toList, .file (Utf8.encode openEnd))]

/-- The second line is shown. -/
theorem finding_of_parseFailure_openEnd :
    ∃ t d front, Utf8.decode (Utf8.encode openEnd) = .ok t ∧
      checkFile .standard openEndFile default none ⟨"a.css".toList⟩ = .ok [d] ∧
      d.checkId = "parse_error" ∧ FoundBehind t none front ∧ 2 = lineEnds front + 1 ∧
      ShownByNumber t front d := by
  have hvalidate : validate (Utf8.encode openEnd) =
      .error (.parse none Fault.unexpectedEnd.message 2 2) := by
    rw [validate_encode, validateText_eq_error_iff]
    exact .inl (loadSheet_eq_error_iff.mpr (.inr ⟨by decide, ⟨.unexpectedEnd, 2, 2⟩,
      by decide +kernel, rfl⟩))
  exact finding_of_parseFailure default none rfl hvalidate
    (not_turnsOff_standard (List.mem_of_getElem? (i := 1) rfl))

/-- A rule behind a comment and a carriage return, with a fault in its second line. -/
def returnedRule : Text := "/* a */\r.b \x7b\n  width 10px;\n\x7d\n".toList

/-- The stylesheet in a directory without settings. -/
def returnedRuleFile : Node := .folder [("a.css".toList, .file (Utf8.encode returnedRule))]

theorem validate_returnedRule : ∃ message, validate (Utf8.encode returnedRule) =
    .error (.parse (some "in declaration") message 3 8) := by
  let rule : QualifiedRule := ⟨".b".toList, "\n  width 10px;".toList, 2, 2⟩
  have hload : loadSheet returnedRule = .ok [.qualified rule] :=
    loadSheet_eq_ok_iff.mpr ⟨by decide, by decide +kernel, by decide +kernel⟩
  have hplace : (Item.firstIssue? rule.items).map (fun issue => (issue.line, issue.column)) =
      some (2, 8) := by
    decide +kernel
  obtain ⟨issue, hissue, hplace⟩ := Option.map_eq_some_iff.mp hplace
  obtain ⟨hline, hcolumn⟩ := Prod.mk.inj hplace
  have hblock : checkRule (.qualified rule) =
      .error (.parse (some "in declaration") issue.fault.message 3 8) := by
    simp only [checkRule, checkItems, hissue, hline, hcolumn]
    rfl
  refine ⟨issue.fault.message, ?_⟩
  rw [validate_encode, validateText_eq_error_iff]
  exact .inr ⟨_, hload, .inl (bind_eq_error.mpr (.inl hblock))⟩

/-- **What is shown for a fault need not be its line.**  The third line of the grammar has the
fault, and the third source line has the brace behind it. -/
theorem exists_fault_not_shown :
    ¬ ∀ c tree now page path bytes context message n column, tree.read path = .ok bytes →
      validate bytes = .error (.parse context message n column) → ¬ TurnsOff c "parse_error" →
      ∃ t d line, Utf8.decode bytes = .ok t ∧ checkFile c tree now page path = .ok [d] ∧
        (grammarLines t)[n - 1]? = some line ∧ d.context = some (String.ofList (trim line)) := by
  intro hall
  obtain ⟨message, hvalidate⟩ := validate_returnedRule
  obtain ⟨t, d, line, ht, hcheck, hline, hcontext⟩ := hall .standard returnedRuleFile default none
    ⟨"a.css".toList⟩ _ _ _ _ _ rfl hvalidate
    (not_turnsOff_standard (List.mem_of_getElem? (i := 1) rfl))
  cases (Utf8.decode_encode returnedRule).symm.trans ht
  have hgrammar : (grammarLines returnedRule)[2]? = some "  width 10px;".toList := by decide +kernel
  cases hgrammar.symm.trans hline
  have hshown : (checkFile .standard returnedRuleFile default none ⟨"a.css".toList⟩).toOption.map
      (·.map Diagnostic.context) = some [some "\x7d"] := by decide +kernel
  rw [hcheck] at hshown
  have hbrace : [d.context] = [some "\x7d"] := Option.some.inj hshown
  rw [hcontext] at hbrace
  exact absurd hbrace (by decide)

end StyleAudit.Audit
