import StyleAudit.Proofs.Css.Columns
import StyleAudit.Proofs.Extract.InnerLines
import StyleAudit.Proofs.Extract.LinesFirst

/-!
# The columns of failures in declarations

The validation reads the inside of each block as a text of its own.  It adds what the line of a
fault lacks to the line in the stylesheet (`parse_failure_line`); the column it leaves as it is
counted within the block.

The fault shows at a `Point` of the stylesheet (`declarationPoint?`): in the block of the first
rule at the top level that has one.  **The column of the failure is that of the point within the
block** (`declaration_column`).  Behind a line end in the block that is the column in the
stylesheet; on the line of the brace that opens the block it lacks the width of what stands in that
line up to the brace, so it never is.
-/

namespace StyleAudit.Extract

open Css

/-- The column of the point within the part that is read. -/
def Point.innerColumn (p : Point) : Nat := columnBehind p.inner

/-- The column of the point within the whole text. -/
def Point.column (p : Point) : Nat := columnBehind (p.outer ++ p.inner)

/-- The point in the block of the rule that begins at the start, if it is a rule of declarations
and its block has a fault. -/
def declarationPointAt? (t : Text) (start : List Lexeme) : Option Point :=
  match ruleAt (endPlace t) start with
  | .qualified rule => (blockPoint? rule.body).map (.within (outerAt false t start))
  | _ => none

/-- Where the validation fails in a declaration: the point in the first block that has a fault, of
the blocks of the rules at the top level. -/
def declarationPoint? (t : Text) : Option Point :=
  (ruleStarts (endPlace t) true (lexemes t)).findSome? (declarationPointAt? t)

/-- The column is that of the point within the part that was read.  In the first line of that part
it lacks the width of what stands in front, in the same line of the text. -/
structure TellsInnerColumn (t : Text) (n : Nat) (p : Point) : Prop where
  stands : StandsBehind t p.outer p.inner
  eq_innerColumn : n = p.innerColumn
  column_eq : p.column = n + if lineEnds p.inner = 0 then width (lastLine p.outer) else 0
  eq_column_iff : n = p.column ↔ lineEnds p.inner ≠ 0

theorem tellsInnerColumn {t : Text} {p : Point} (hstands : StandsBehind t p.outer p.inner)
    (hbrace : p.outer.getLast? = some '\x7b') : TellsInnerColumn t p.innerColumn p := by
  by_cases hends : lineEnds p.inner = 0
  · -- the brace in front has a width, so that the columns differ
    have hbehind := one_lt_columnBehind hbrace (by decide)
    have hcolumn : p.column = columnBehind p.outer + width p.inner :=
      columnBehind_append hends p.outer
    have hinner : p.innerColumn = 1 + width p.inner := columnBehind_append hends []
    rw [columnBehind] at hbehind hcolumn
    exact ⟨hstands, rfl, by rw [if_pos hends]; omega, iff_of_false (by omega) (by omega)⟩
  · have hcolumn : p.column = p.innerColumn := columnBehind_append_of_lineEnds hends p.outer
    exact ⟨hstands, rfl, by rw [if_neg hends, hcolumn]; rfl, iff_of_true hcolumn.symm hends⟩

theorem blockFault?_eq_none {rule : QualifiedRule} (h : IsReadable rule) :
    blockFault? rule.body = none := by
  have hshows := showsAt_parseBlock rule.body
  rw [← QualifiedRule.items, firstIssue?_items_eq_none_iff.mpr h] at hshows
  generalize blockFault? rule.body = fault at hshows
  cases hshows
  rfl

/-- A rule that passes has no point. -/
theorem declarationPointAt?_eq_none {t : Text} {start : List Lexeme}
    (h : checkRule (ruleAt (endPlace t) start) = .ok ()) : declarationPointAt? t start = none := by
  have hpass := passes_of_checkRule_eq_ok h
  rw [declarationPointAt?]
  split
  next rule hrule =>
    rw [hrule] at hpass
    rw [blockPoint?, blockFault?_eq_none hpass.1]
    rfl
  next => rfl

/-- **A failure in a declaration has the column within the block.**  There is a point at which it
fails: where the first fault in the block of a rule at the top level shows.  The line of the
failure is that of the point in the stylesheet.  The column is that of the point in the line
counted from the beginning of the block, and so it is the column in the stylesheet exactly if a
line ends in the block in front of the point. -/
theorem declaration_column {t : Text} {message : String} {line column : Nat}
    (h : validate (Utf8.encode t) =
      .error (.parse (some "in declaration") message line column)) :
    ∃ p, declarationPoint? t = some p ∧ line = p.line ∧ TellsInnerColumn t column p := by
  rw [validate_encode, validateText_eq_error_iff] at h
  rcases h with h | ⟨rules, hrules, h | ⟨-, h⟩⟩
  · rcases loadSheet_eq_error_iff.mp h with ⟨-, h⟩ | ⟨-, issue, -, h⟩ <;> cases h
  · obtain ⟨-, -, rfl⟩ := loadSheet_eq_ok_iff.mp hrules
    obtain ⟨before, start, after, hstarts, hbefore, hrule⟩ := exists_start_of_forM_eq_error h
    have hstart : start ∈ ruleStarts (endPlace t) true (lexemes t) := by
      rw [hstarts]
      exact List.mem_append_right _ List.mem_cons_self
    obtain ⟨q, issue, hq, hissue, -, rfl, rfl⟩ := exists_issue_of_checkRule hrule
    obtain ⟨rest, front, hfault, hfront, hline, hcolumn⟩ :=
      place_of_showsAt (hissue ▸ showsAt_parseBlock q.body)
    obtain ⟨block, outer, hblock, hat⟩ := exists_blockAt_of_ruleAt hstart hq
    have houter : outerAt false t start = outer := by
      rw [outerAt, hblock, Option.map_some, Option.getD_some, frontOf_eq hat.text_eq]
    have hpoint : declarationPointAt? t start = some ⟨outer, front⟩ := by
      simp only [declarationPointAt?, hq, blockPoint?, hfault, Option.map_some, Point.within,
        frontOf_eq hfront, houter, List.append_nil]
    refine ⟨⟨outer, front⟩, ?_, ?_, ?_⟩
    · rw [declarationPoint?, hstarts, List.findSome?_append, List.findSome?_cons, hpoint,
        List.findSome?_eq_none_iff.mpr fun s hs => declarationPointAt?_eq_none (hbefore s hs)]
      rfl
    · rw [Point.line, ← hat.line_eq front ⟨_, hfront⟩, hline]
    · rw [hcolumn, column_past_start]
      exact tellsInnerColumn (p := ⟨outer, front⟩) ⟨hat.prefix_text ⟨_, hfront⟩, .inr hat.brace⟩
        hat.brace
  · unfold checkSheetLines at h
    split at h <;> cases h

/-- A block with a fault on the line of its brace. -/
def faultBesideBrace : Text := ".a \x7b color red; \x7d".toList

theorem validate_faultBesideBrace :
    ∃ message, validate (Utf8.encode faultBesideBrace) =
      .error (.parse (some "in declaration") message 1 7) := by
  let rule : QualifiedRule := ⟨".a".toList, " color red;".toList, 1, 1⟩
  let issue : Issue := ⟨.unexpectedToken (.ident "red".toList), 1, 7⟩
  have hload : loadSheet faultBesideBrace = .ok [.qualified rule] :=
    loadSheet_eq_ok_iff.mpr ⟨by decide, by decide +kernel, by decide +kernel⟩
  have hitems : Item.firstIssue? rule.items = some issue := by decide +kernel
  have hblock : checkRule (.qualified rule) =
      .error (.parse (some "in declaration") issue.fault.message 1 7) := by
    simp only [checkRule, checkItems, hitems]
    rfl
  refine ⟨issue.fault.message, ?_⟩
  rw [validate_encode, validateText_eq_error_iff]
  exact .inr ⟨_, hload, .inl (bind_eq_error.mpr (.inl hblock))⟩

theorem declarationPoint?_faultBesideBrace :
    declarationPoint? faultBesideBrace = some ⟨".a \x7b".toList, " color".toList⟩ := by
  decide +kernel

/-- The column is that of the point behind `color`, counted from the brace. -/
theorem declaration_column_faultBesideBrace :
    ∃ message, validate (Utf8.encode faultBesideBrace) =
        .error (.parse (some "in declaration") message 1 7) ∧
      ∃ p, declarationPoint? faultBesideBrace = some p ∧ 1 = p.line ∧
        TellsInnerColumn faultBesideBrace 7 p := by
  obtain ⟨message, h⟩ := validate_faultBesideBrace
  exact ⟨message, h, declaration_column h⟩

/-- **The column of a failure in a declaration need not be the column in the stylesheet.** -/
theorem exists_declaration_column_ne :
    ¬ ∀ t message line column, validate (Utf8.encode t) =
        .error (.parse (some "in declaration") message line column) →
      ∃ p, declarationPoint? t = some p ∧ column = p.column := by
  intro hall
  obtain ⟨message, h⟩ := validate_faultBesideBrace
  obtain ⟨p, hp, hcolumn⟩ := hall _ _ _ _ h
  rw [declarationPoint?_faultBesideBrace] at hp
  cases hp
  exact absurd hcolumn (by decide)

end StyleAudit.Extract
