import StyleAudit.Proofs.Audit.Locating
import StyleAudit.Proofs.Audit.Verdict
import StyleAudit.Proofs.Extract.InnerLines
import StyleAudit.Proofs.Extract.OpenLines

/-!
# Which line is shown for a semicolon missing in a block

The check of a block knows which line it objects to, but it passes on only what it saw of that
line: the text without comments, trimmed.  The finding is then given the first line of the file
that holds this text (`Text.locate?`).

Here the line that is objected to is told by its number in the file (`RejectedAt`).  It is in the
block of the first rule in which anything is wrong, and its number is put together from the line
feeds in front of the inside of that block and its number within the block.  **The finding shows
this line exactly if it holds what the check saw of it and no line before it does**
(`finding_of_missingSemicolon`).  If there is no comment in the line, it does hold it, and what is
shown is that line or one before it; that can be a line in which nothing is wrong
(`exists_finding_earlier_line`).
-/

namespace StyleAudit

open Css
open Text (Coverage Matches splitLines trim HoldsFirst)

namespace Extract

/-! ## The line that is objected to -/

/-- Line `k` of the text, counted from zero, is the one that the check of blocks objects to, with
`line` for what it saw of it.  The line is line `i` of the block of rule `n`, the first rule that
does not pass, and the first of that block that lacks its semicolon; `l` is what of it stands in
the block, with the comments marked. -/
inductive RejectedAt (t line : Text) : Nat → Coverage → Prop
  | intro {n i : Nat} {rule : QualifiedRule} {m l : Coverage}
      (hrule : (parseStylesheet t)[n]? = some (.qualified rule))
      (hbefore : ∀ r ∈ (parseStylesheet t).take n, Passes r) (hreadable : IsReadable rule)
      (hm : Matches CommentAt rule.body m) (hl : m.lines[i]? = some l)
      (hopen : OpenInBlock (m.lines.map Coverage.bare) i line)
      (hfirst : ∀ j < i, ∀ line', ¬ OpenInBlock (m.lines.map Coverage.bare) j line') :
      RejectedAt t line ((sheetOuter [n] t).count '\n' + i) l

/-- Line `k` of the text, counted from zero, ends in `l`, its carriage return aside. -/
def EndsLine (t : Text) (k : Nat) (l : Text) : Prop :=
  ∃ lead l', t.sourceLines[k]? = some l' ∧ (l' = lead ++ l ∨ lead ++ l = l' ++ ['\r'])

theorem checkRule_eq_missingSemicolon_iff {rule : QualifiedRule} {line : Text} :
    checkRule (.qualified rule) = .error (.missingSemicolon line none) ↔
      IsReadable rule ∧ checkBlockLines rule.body = .error (.missingSemicolon line none) := by
  simp only [checkRule]
  by_cases hempty : rule.body.isEmpty = true
  · rw [if_pos hempty]
    refine iff_of_false (fun h => by cases h) ?_
    rintro ⟨-, h⟩
    rcases checkBlockLines_cases rule.body with ⟨hok, -⟩ | ⟨-, -, hnot⟩
    · rw [hok] at h
      cases h
    · exact hnot (passes_of_isEmpty hempty).2
  · rw [if_neg hempty, bind_eq_error]
    constructor
    · rintro (h | ⟨⟨⟩, hitems, h⟩)
      · obtain ⟨_, _, _, h'⟩ := exists_of_checkItems_eq_error h
        cases h'
      · exact ⟨checkItems_eq_ok_iff.mp hitems, h⟩
    · rintro ⟨hreadable, h⟩
      exact .inr ⟨(), checkItems_eq_ok_iff.mpr hreadable, h⟩

/-- **A block is objected to exactly if one of its lines is.** -/
theorem validateText_eq_missingSemicolon_iff {t line : Text} :
    validateText t = .error (.missingSemicolon line none) ↔
      loadSheet t = .ok (parseStylesheet t) ∧ ∃ k l, RejectedAt t line k l := by
  rw [validateText_eq_error_iff]
  constructor
  · rintro (h | ⟨rules, hload, h | ⟨-, h⟩⟩)
    · rcases loadSheet_eq_error_iff.mp h with ⟨-, h⟩ | ⟨-, issue, -, h⟩ <;> cases h
    · obtain ⟨-, -, rfl⟩ := loadSheet_eq_ok_iff.mp hload
      obtain ⟨before, r, after, hrules, hbefore, hr⟩ := exists_split_of_forM_eq_error h
      obtain ⟨rule, rfl⟩ : ∃ rule, r = .qualified rule := by
        cases r with
        | qualified rule => exact ⟨rule, rfl⟩
        | atRule rule => cases hr
        | error issue => cases hr
      obtain ⟨hreadable, hlines⟩ := checkRule_eq_missingSemicolon_iff.mp hr
      obtain ⟨m, hm⟩ := exists_matches_comments rule.body
      obtain ⟨i, hopen, hfirst⟩ := (checkBlockLines_eq_error_iff hm).mp hlines
      obtain ⟨_, hbare, -⟩ := hopen.openAt.here
      rw [List.getElem?_map, Option.map_eq_some_iff] at hbare
      obtain ⟨l, hl, -⟩ := hbare
      refine ⟨hload, _, l, .intro (n := before.length) ?_ ?_ hreadable hm hl hopen hfirst⟩
      · rw [hrules, List.getElem?_append_right (Nat.le_refl _), Nat.sub_self]
        rfl
      · rw [hrules, List.take_left]
        exact fun r hr => passes_of_checkRule_eq_ok (hbefore r hr)
    · unfold checkSheetLines at h
      split at h <;> cases h
  · rintro ⟨hload, k, l, hrule, hbefore, hreadable, hm, hl, hopen, hfirst⟩
    refine .inr ⟨_, hload, .inl ?_⟩
    have hlines := (checkBlockLines_eq_error_iff hm).mpr ⟨_, hopen, hfirst⟩
    obtain ⟨hlt, hget⟩ := List.getElem?_eq_some_iff.mp hrule
    rw [← List.take_append_drop _ (parseStylesheet t), List.drop_eq_getElem_cons hlt, hget,
      forM_append_cons fun r hr => (checkRule_of_passes (hbefore r hr)).1]
    exact bind_eq_error.mpr (.inl (checkRule_eq_missingSemicolon_iff.mpr ⟨hreadable, hlines⟩))

namespace RejectedAt

variable {t line : Text} {k : Nat} {l : Coverage}

theorem line_eq (h : RejectedAt t line k l) : line = trim l.bare ∧ line ≠ [] := by
  obtain ⟨-, -, -, -, hl, hopen, -⟩ := h
  obtain ⟨l', hl', htrim⟩ := hopen.openAt.here
  rw [List.getElem?_map, hl] at hl'
  cases hl'
  exact ⟨htrim.symm, hopen.openAt.ne_nil⟩

/-- **The line that is objected to is a line of the text.**  In front of the block, more of the
text may stand in it. -/
theorem endsLine (h : RejectedAt t line k l) : EndsLine t k l.text := by
  obtain ⟨hline, hne⟩ := h.line_eq
  obtain ⟨hrule, -, -, hm, hl, hopen, -⟩ := h
  rename_i n i rule m
  have hstands : StandsBehind t (sheetOuter [n] t) rule.body :=
    (ReachedInSheet.rule hrule (.here rule.body)).standsBehind
  obtain ⟨rest, hrest⟩ := hstands.prefix_text
  have hlines : m.lines.map Coverage.text = splitLines rule.body := by
    rw [Coverage.map_text_lines, hm.text_eq]
  have hline' : (splitLines rule.body)[i]? = some l.text := by
    rw [← hlines, List.getElem?_map, hl]
    rfl
  have hlast : i + 1 < (splitLines rule.body).length := by
    obtain ⟨next, hnext, -⟩ := hopen.openAt.next
    rw [← hlines, List.length_map, ← List.length_map (f := Coverage.bare)]
    exact (List.getElem?_eq_some_iff.mp hnext).1
  obtain ⟨lead, hlead, -⟩ :=
    Text.exists_getElem?_splitOn_infix hline' hlast (sheetOuter [n] t) rest
  rw [hrest] at hlead
  have hne' : lead ++ l.text ≠ [] := by
    intro hnil
    have hempty : l = [] := List.map_eq_nil_iff.mp (List.append_eq_nil_iff.mp hnil).2
    exact hne (by rw [hline, hempty]; rfl)
  obtain ⟨l', hl', hreturn⟩ := Text.exists_getElem?_sourceLines hlead hne'
  exact ⟨lead, l', hl', hreturn⟩

/-- Where no comment stands in the line, it holds what the check saw of it. -/
theorem infix_sourceLine (h : RejectedAt t line k l) (hcovered : ∀ p ∈ l, p.2 = false) :
    ∃ l', t.sourceLines[k]? = some l' ∧ line <:+: l' := by
  obtain ⟨lead, l', hl', hreturn⟩ := h.endsLine
  obtain ⟨hline, hne⟩ := h.line_eq
  rw [Coverage.bare_eq_text hcovered] at hline
  have hinfix : line <:+: lead ++ l.text := by
    rw [hline]
    exact (Text.trim_infix l.text).trans (List.suffix_append lead l.text).isInfix
  refine ⟨l', hl', Text.infix_of_return hreturn (fun hlast => ?_) hinfix⟩
  have hblank := (Text.not_isBlank_of_trim_eq_self (hline ▸ Text.trim_trim l.text)).2 _ hlast
  cases hblank

end RejectedAt

end Extract

namespace Audit

open Extract

/-! ## The line that is shown -/

/-- **A semicolon missing in a block is shown where its line stands exactly if that line holds what
the check saw of it, and no line before it does.**  Where the validation of a file fails for a line
of a block and the check is on, there is one finding, and a line of the file that is objected to.
The finding shows the first line of the file that holds the text without comments, trimmed, that the
check saw of that line.  With no comment in the line that is the line itself or one before it. -/
theorem finding_of_missingSemicolon {c : Config} {tree : Node} {path : Path}
    {bytes : List UInt8} {line : Text} (now : Moment) (page : Option Text)
    (hread : tree.read path = .ok bytes)
    (hvalidate : validate bytes = .error (.missingSemicolon line none))
    (hon : ¬ TurnsOff c "missing_semicolon") :
    ∃ t d, Utf8.decode bytes = .ok t ∧ checkFile c tree now page path = .ok [d] ∧
      d.checkId = "missing_semicolon" ∧ ShownByText t line d ∧ (∃ k l, RejectedAt t line k l) ∧
      ∀ k l, RejectedAt t line k l → EndsLine t k l.text ∧
        (Shows t k d ↔ HoldsFirst line t k) ∧
        ((∀ p ∈ l, p.2 = false) → ∃ j ≤ k, Shows t j d) := by
  obtain ⟨t, d, hdecode, hvalidate', hcheck, hcheckId, hline, hcontext⟩ :=
    exists_finding_of_failure c now page path hread hvalidate (fun _ => Failure.noConfusion) hon
  obtain ⟨-, hrejected⟩ := validateText_eq_missingSemicolon_iff.mp hvalidate'
  have hshown := shownByText hline (hcontext.trans (lineText?_locate? line t))
  refine ⟨t, d, hdecode, hcheck, hcheckId, hshown, hrejected,
    fun k l h => ⟨h.endsLine, hshown.shows_iff, fun hcovered => ?_⟩⟩
  obtain ⟨l', hl', hinfix⟩ := h.infix_sourceLine hcovered
  exact hshown.notBehind hl' hinfix

/-- Two rules with the same first line; only in the second one it lacks its semicolon. -/
def sameLineTwice : Text :=
  ".a \x7b\n  color: red;\n\x7d\n.b \x7b\n  color: red\n  margin: 0;\n\x7d\n".toList

/-- The rule in which the semicolon is missing. -/
def openRule : QualifiedRule :=
  ⟨".b".toList, "\n  color: red\n  margin: 0;".toList, 4, 4⟩

theorem parseStylesheet_sameLineTwice : parseStylesheet sameLineTwice =
    [.qualified ⟨".a".toList, "\n  color: red;".toList, 1, 1⟩, .qualified openRule] := by
  decide +kernel

/-- The fifth line is objected to. -/
theorem rejectedAt_sameLineTwice :
    ∃ l, RejectedAt sameLineTwice "color: red".toList 4 l := by
  have hlines : (Coverage.lines (openRule.body.map (·, false))).map Coverage.bare =
      [[], "  color: red".toList, "  margin: 0;".toList] := by decide +kernel
  have houter : (sheetOuter [1] sameLineTwice).count '\n' = 3 := by decide +kernel
  have hpasses : Passes (.qualified ⟨".a".toList, "\n  color: red;".toList, 1, 1⟩) :=
    ⟨firstIssue?_items_eq_none_iff.mp (by decide +kernel),
      (findUnterminated_eq_none_iff (n := 1)).mp (by decide +kernel)⟩
  have hrejected := @RejectedAt.intro sameLineTwice "color: red".toList 1 1 openRule
    (openRule.body.map (·, false)) ("  color: red".toList.map (·, false))
    (by rw [parseStylesheet_sameLineTwice]; rfl)
    (by
      rw [parseStylesheet_sameLineTwice]
      exact List.forall_mem_singleton.mpr hpasses)
    (firstIssue?_items_eq_none_iff.mp (by decide +kernel))
    (matches_comments_of_notMem (by decide)) (by decide +kernel)
    (by
      rw [hlines]
      exact ⟨⟨⟨_, rfl, by decide⟩, ⟨by decide, by decide, by decide, by decide⟩,
        _, rfl, .inl (by decide)⟩, 2, _, by decide, rfl, by decide⟩)
    (by
      rw [hlines]
      rintro j hj line' ⟨⟨⟨l, hl, rfl⟩, hlooks, -⟩, -⟩
      obtain rfl : j = 0 := by omega
      cases hl
      exact absurd hlooks.colon (by decide))
  rw [houter] at hrejected
  exact ⟨_, hrejected⟩

/-- The stylesheet in a directory without settings. -/
def sameLineTwiceFile : Node := .folder [("a.css".toList, .file (Utf8.encode sameLineTwice))]

theorem validate_sameLineTwice : validate (Utf8.encode sameLineTwice) =
    .error (.missingSemicolon "color: red".toList none) := by
  rw [validate_encode, validateText_eq_missingSemicolon_iff]
  exact ⟨loadSheet_eq_ok_iff.mpr ⟨by decide, by decide +kernel, rfl⟩, 4, rejectedAt_sameLineTwice⟩

/-- The finding is about the fifth line, and its line is the first that holds the same text. -/
theorem finding_of_missingSemicolon_sameLineTwice :
    ∃ t d, Utf8.decode (Utf8.encode sameLineTwice) = .ok t ∧
      checkFile .standard sameLineTwiceFile default none ⟨"a.css".toList⟩ = .ok [d] ∧
      d.checkId = "missing_semicolon" ∧ ShownByText t "color: red".toList d ∧
      (∃ k l, RejectedAt t "color: red".toList k l) ∧
      ∀ k l, RejectedAt t "color: red".toList k l → EndsLine t k l.text ∧
        (Shows t k d ↔ HoldsFirst "color: red".toList t k) ∧
        ((∀ p ∈ l, p.2 = false) → ∃ j ≤ k, Shows t j d) := by
  exact finding_of_missingSemicolon default none rfl validate_sameLineTwice
    (not_turnsOff_standard (List.mem_of_getElem? (i := 2) rfl))

/-- **A semicolon missing in a block need not be shown where it is missing.** -/
theorem exists_finding_earlier_line :
    ¬ ∀ c tree now page path bytes line, tree.read path = .ok bytes →
      validate bytes = .error (.missingSemicolon line none) →
      ¬ TurnsOff c "missing_semicolon" →
      ∃ t d, Utf8.decode bytes = .ok t ∧ checkFile c tree now page path = .ok [d] ∧
        ∀ k l, RejectedAt t line k l → Shows t k d := by
  intro hall
  obtain ⟨t, d, ht, hcheck, hshows⟩ := hall .standard sameLineTwiceFile default none
    ⟨"a.css".toList⟩ _ _ rfl validate_sameLineTwice
    (not_turnsOff_standard (List.mem_of_getElem? (i := 2) rfl))
  cases (Utf8.decode_encode sameLineTwice).symm.trans ht
  obtain ⟨l, hrejected⟩ := rejectedAt_sameLineTwice
  have hlines : (checkFile .standard sameLineTwiceFile default none ⟨"a.css".toList⟩).toOption.map
      (·.map Diagnostic.line) = some [some 2] := by decide +kernel
  rw [hcheck] at hlines
  have hline : [d.line] = [some 2] := Option.some.inj hlines
  rw [(hshows 4 l hrejected).1] at hline
  exact absurd hline (by decide)

end Audit
end StyleAudit
