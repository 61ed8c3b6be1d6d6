import StyleAudit.Extract.Validity
import StyleAudit.Proofs.Css.Faults
import StyleAudit.Proofs.Extract.Refusal

/-!
# The lines of parse failures

A parse failure of `validate` is found in one of two readings.  A fault at the top level is found
while the stylesheet is read, and its line is that of the point where it shows.  A fault in a block
is found while the inside of the block is read as a text of its own, and its line is put together
from two counts: the line of the block within the stylesheet and the line of the point within the
block.

The two counts add up because the inside of the block begins right behind a brace
(`BlockAt.line_eq`): what stands in the stylesheet before the point is the stylesheet up to that
brace and then the block up to the point, and no line end lies across the seam.  So **the line of
a parse failure is one more than the number of line ends before the point where the fault shows**
(`parse_failure_line`), whichever reading it was found in.
-/

namespace StyleAudit.Extract

open Css

/-! ## Points in a block -/

/-- The block of the rule is the front of `block`, and in the text it stands behind `outer`,
which ends in the brace that opens it. -/
structure BlockAt (t : Text) (block : List Lexeme) (rule : QualifiedRule) (outer : Text) :
    Prop where
  text_eq : outer ++ Lexeme.sourceOf block = t
  brace : outer.getLast? = some '\x7b'
  body_prefix : rule.body <+: Lexeme.sourceOf block
  /-- The line of a place in the block is one less than the line of the block and the line
  within the block together. -/
  line_eq : ∀ front, front <+: rule.body →
    rule.bodyLine + ((Place.start.past front).line - 1) = 1 + lineEnds (outer ++ front)

theorem BlockAt.prefix_text {t : Text} {block : List Lexeme} {rule : QualifiedRule}
    {outer front : Text} (h : BlockAt t block rule outer) (hfront : front <+: rule.body) :
    outer ++ front <+: t := by
  obtain ⟨rest, hrest⟩ := hfront.trans h.body_prefix
  exact ⟨rest, by rw [List.append_assoc, hrest, h.text_eq]⟩

/-- The block of a qualified rule stands behind its brace. -/
theorem exists_blockAt {t : Text} {nested : Bool} {s : List Lexeme} {rule : QualifiedRule}
    (hs : s <:+ lexemes t) (h : (qualifiedAhead nested (endPlace t) s).1 = .ok rule) :
    ∃ block outer, insideBrace? (if nested then endsHead else opensBlock) s = some block ∧
      BlockAt t block rule outer := by
  obtain ⟨e, block, hskip, hopens, hbody, hline⟩ := body_qualifiedAhead h
  have hbrace : e :: block <:+ lexemes t := by
    rw [← hskip]
    exact (skipBlanks_valuesUntil_suffix _ [] s).trans hs
  obtain ⟨outer, houter, hlast, hplace⟩ := exists_front_of_opensBlock hbrace hopens
  refine ⟨block, outer, insideBrace?_of_skipBlanks hskip hopens,
    ⟨houter, hlast, hbody ▸ blockAhead_prefix block, fun front _ => ?_⟩⟩
  rw [hline, stop_eq_placeOf hbrace, hplace, line_past_start, line_past_start,
    lineEnds_append (by rw [hlast]; decide)]
  omega

/-- **In a stylesheet, the lines of the places in a block are counted in the stylesheet.** -/
theorem exists_blockAt_of_ruleAt {t : Text} {start : List Lexeme} {rule : QualifiedRule}
    (hstart : start ∈ ruleStarts (endPlace t) true (lexemes t))
    (h : ruleAt (endPlace t) start = .qualified rule) :
    ∃ block outer, insideBlock? false start = some block ∧ BlockAt t block rule outer := by
  obtain ⟨hne, hsuffix⟩ := ruleStarts_suffix hstart
  obtain ⟨l, ls, rfl⟩ := List.exists_cons_of_ne_nil hne
  obtain ⟨hresult, hinside⟩ := qualified_of_ruleAt h
  rw [hinside]
  exact exists_blockAt hsuffix hresult

/-- **In a block, the lines of the places in the block of a rule are counted in the outer
block.** -/
theorem exists_blockAt_of_itemAt {t : Text} {start : List Lexeme} {rule : QualifiedRule}
    (hstart : start ∈ itemStarts (endPlace t) (lexemes t))
    (h : itemAt (endPlace t) start = .rule (.qualified rule)) :
    ∃ block outer, insideBlock? true start = some block ∧ BlockAt t block rule outer := by
  obtain ⟨hne, hsuffix⟩ := itemStarts_suffix hstart
  obtain ⟨l, ls, rfl⟩ := List.exists_cons_of_ne_nil hne
  obtain ⟨hresult, hinside⟩ := qualified_of_itemAt h
  rw [hinside]
  exact exists_blockAt hsuffix hresult

/-! ## The point of a failure -/

/-- A parse failure with the context is found behind the text `front`: at the first fault of the
stylesheet, or at the first fault in the block of the first rule that does not pass. -/
inductive FoundBehind (t : Text) : Option String → Text → Prop
  | sheet {rest : List Lexeme} {front : Text} (hfault : sheetFault? t = some rest)
      (hfront : front ++ Lexeme.sourceOf rest = t) : FoundBehind t none front
  | block {before after : List (List Lexeme)} {start block rest : List Lexeme}
      {rule : QualifiedRule} {outer front : Text}
      (hstarts : ruleStarts (endPlace t) true (lexemes t) = before ++ start :: after)
      (hbefore : ∀ s ∈ before, checkRule (ruleAt (endPlace t) s) = .ok ())
      (hrule : ruleAt (endPlace t) start = .qualified rule)
      (hblock : insideBlock? false start = some block) (hat : BlockAt t block rule outer)
      (hfault : blockFault? rule.body = some rest)
      (hfront : front ++ Lexeme.sourceOf rest = rule.body) :
      FoundBehind t (some "in declaration") (outer ++ front)

theorem FoundBehind.prefix_text {t : Text} {context : Option String} {front : Text}
    (h : FoundBehind t context front) : front <+: t := by
  cases h with
  | sheet hfault hfront => exact ⟨_, hfront⟩
  | block hstarts hbefore hrule hblock hat hfault hfront => exact hat.prefix_text ⟨_, hfront⟩

/-- The line and the column of an issue are those of the point where its fault shows. -/
theorem place_of_showsAt {t : Text} {issue : Issue} {point : Option (List Lexeme)}
    (h : ShowsAt t (some issue) point) :
    ∃ rest front, point = some rest ∧ front ++ Lexeme.sourceOf rest = t ∧
      issue.line = (Place.start.past front).line ∧
      issue.column = (Place.start.past front).column := by
  cases h with
  | @fault _ rest hls hline hcolumn =>
    obtain ⟨front, hfront, hplace⟩ := exists_front hls
    exact ⟨rest, front, rfl, hfront, by rw [hline, hplace], by rw [hcolumn, hplace]⟩

/-- The line of an issue counts the line ends before the point where its fault shows. -/
theorem line_of_showsAt {t : Text} {issue : Issue} {point : Option (List Lexeme)}
    (h : ShowsAt t (some issue) point) :
    ∃ rest front, point = some rest ∧ front ++ Lexeme.sourceOf rest = t ∧
      issue.line = 1 + lineEnds front := by
  obtain ⟨rest, front, hpoint, hfront, hline, -⟩ := place_of_showsAt h
  exact ⟨rest, front, hpoint, hfront, by rw [hline, line_past_start]⟩

/-- A block fails with a parse failure only at its first fault. -/
theorem exists_issue_of_checkRule {rule : Rule} {context : Option String} {message : String}
    {line column : Nat} (h : checkRule rule = .error (.parse context message line column)) :
    ∃ q issue, rule = .qualified q ∧ Item.firstIssue? (parseBlock q.body) = some issue ∧
      context = some "in declaration" ∧ line = q.bodyLine + (issue.line - 1) ∧
      column = issue.column := by
  cases rule with
  | atRule r => cases h
  | error issue => cases h
  | qualified q =>
    simp only [checkRule] at h
    split at h
    · cases h
    · rw [bind_eq_error] at h
      rcases h with h | ⟨-, -, h⟩
      · unfold checkItems at h
        split at h
        next issue hissue =>
          cases h
          exact ⟨q, issue, rfl, hissue, rfl, rfl, rfl⟩
        · cases h
      · unfold checkBlockLines at h
        split at h <;> cases h

/-- The blocks of a text fail with the failure of the first rule that does not pass. -/
theorem exists_start_of_forM_eq_error {t : Text} {e : Failure}
    (h : (parseStylesheet t).forM checkRule = .error e) : ∃ before start after,
      ruleStarts (endPlace t) true (lexemes t) = before ++ start :: after ∧
      (∀ s ∈ before, checkRule (ruleAt (endPlace t) s) = .ok ()) ∧
      checkRule (ruleAt (endPlace t) start) = .error e := by
  rw [parseStylesheet, rulesFrom_eq_map] at h
  obtain ⟨_, rule, _, hsplit, hbefore, hrule⟩ := exists_split_of_forM_eq_error h
  obtain ⟨before, rest, hstarts, rfl, hrest⟩ := List.map_eq_append_iff.mp hsplit
  obtain ⟨start, after, rfl, rfl, rfl⟩ := List.map_eq_cons_iff.mp hrest
  exact ⟨before, start, after, hstarts, List.forall_mem_map.mp hbefore, hrule⟩

/-- **The line of a parse failure is one more than the number of line ends in the text before the
point where its fault shows.** -/
theorem exists_foundBehind {t : Text} {context : Option String} {message : String}
    {line column : Nat}
    (h : validate (Utf8.encode t) = .error (.parse context message line column)) :
    ∃ front, FoundBehind t context front ∧ line = 1 + lineEnds front := by
  rw [validate_encode, validateText_eq_error_iff] at h
  rcases h with h | ⟨rules, hrules, h | ⟨-, h⟩⟩
  · rcases loadSheet_eq_error_iff.mp h with ⟨-, h⟩ | ⟨-, issue, hissue, h⟩
    · cases h
    · cases h
      obtain ⟨rest, front, hfault, hfront, hline⟩ :=
        line_of_showsAt (hissue ▸ showsAt_parseStylesheet t)
      exact ⟨front, .sheet hfault hfront, hline⟩
  · obtain ⟨-, -, rfl⟩ := loadSheet_eq_ok_iff.mp hrules
    obtain ⟨before, start, after, hstarts, hbefore, hrule⟩ := exists_start_of_forM_eq_error h
    obtain ⟨q, issue, hq, hissue, rfl, rfl, -⟩ := exists_issue_of_checkRule hrule
    obtain ⟨rest, front, hfault, hfront, hline⟩ :=
      line_of_showsAt (hissue ▸ showsAt_parseBlock q.body)
    obtain ⟨block, outer, hblock, hat⟩ := exists_blockAt_of_ruleAt
      (by rw [hstarts]; exact List.mem_append_right _ List.mem_cons_self) hq
    have hplace := hat.line_eq front ⟨_, hfront⟩
    rw [line_past_start, ← hline] at hplace
    exact ⟨outer ++ front, .block hstarts hbefore hq hblock hat hfault hfront, hplace⟩
  · unfold checkSheetLines at h
    split at h <;> cases h

/-- **Every parse failure has the line of the point where its fault shows, and every place in a
block has the line that it has in the text around the block.**  The first part is about the
stylesheet and about the blocks at its top level; the other two are about any text that is read as
a stylesheet or as a block, so they also hold of rules that stand deeper. -/
theorem parse_failure_line (t : Text) :
    (∀ context message line column,
      validate (Utf8.encode t) = .error (.parse context message line column) →
        ∃ front, front <+: t ∧ FoundBehind t context front ∧ line = 1 + lineEnds front) ∧
    (∀ start ∈ ruleStarts (endPlace t) true (lexemes t), ∀ rule,
      ruleAt (endPlace t) start = .qualified rule →
        ∃ block outer, insideBlock? false start = some block ∧ BlockAt t block rule outer) ∧
    ∀ start ∈ itemStarts (endPlace t) (lexemes t), ∀ rule,
      itemAt (endPlace t) start = .rule (.qualified rule) →
        ∃ block outer, insideBlock? true start = some block ∧ BlockAt t block rule outer := by
  refine ⟨fun context message line column h => ?_,
    fun start hstart rule => exists_blockAt_of_ruleAt hstart,
    fun start hstart rule => exists_blockAt_of_itemAt hstart⟩
  obtain ⟨front, hfront, hline⟩ := exists_foundBehind h
  exact ⟨front, hfront.prefix_text, hfront, hline⟩

/-- A stylesheet whose one block has a fault behind a line end of each kind: a pair before the
brace and one behind it, a form feed in a comment, and a carriage return. -/
def fourLineEnds : Text := "a\r\n\x7b\r\n/*\x0c*/b:c;\r d e;\x7d".toList

/-- The fault shows in the fifth line. -/
theorem parse_failure_line_fourLineEnds :
    ∃ message column, validate (Utf8.encode fourLineEnds) =
        .error (.parse (some "in declaration") message 5 column) ∧
      ∃ front, front <+: fourLineEnds ∧
        FoundBehind fourLineEnds (some "in declaration") front ∧ 5 = 1 + lineEnds front := by
  let rule : QualifiedRule := ⟨['a'], "\r\n/*\x0c*/b:c;\r d e;".toList, 1, 2⟩
  let issue : Issue := ⟨.unexpectedToken (.ident ['e']), 4, 3⟩
  have hload : loadSheet fourLineEnds = .ok [.qualified rule] :=
    loadSheet_eq_ok_iff.mpr ⟨by decide, by decide +kernel, by decide +kernel⟩
  have hitems : Item.firstIssue? rule.items = some issue := by decide +kernel
  have hblock : checkRule (.qualified rule) =
      .error (.parse (some "in declaration") issue.fault.message 5 3) := by
    simp only [checkRule, checkItems, hitems]
    rfl
  have h : validate (Utf8.encode fourLineEnds) =
      .error (.parse (some "in declaration") issue.fault.message 5 3) := by
    rw [validate_encode, validateText, hload]
    exact bind_eq_error.mpr (.inr ⟨_, rfl, bind_eq_error.mpr
      (.inl (bind_eq_error.mpr (.inl hblock)))⟩)
  exact ⟨_, _, h, (parse_failure_line fourLineEnds).1 _ _ _ _ h⟩

end StyleAudit.Extract
