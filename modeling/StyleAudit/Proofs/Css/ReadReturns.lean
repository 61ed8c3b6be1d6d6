import Mathlib.Data.List.Forall2
import StyleAudit.Proofs.Css.Faults
import StyleAudit.Proofs.Css.ScanReturns

/-!
# Reading a text with returns

The lexemes of a text with returns are those of the text, each with the returns in its own text
(`lexemes_withReturns`), and the grammar does not look at those texts.  So rules and items begin
where they began and faults show where they showed; and since the lexemes stand at the same
places, issues have the same lines and columns (`firstIssue?_parseStylesheet_withReturns`,
`firstIssue?_parseBlock_withReturns`).  What a rule keeps of the text has the returns in it
(`parseStylesheet_withReturns`).
-/

namespace StyleAudit.Css

open Text (withReturns)

/-! ## Lexemes with returns -/

theorem keepsTokens_withReturns : KeepsTokens Lexeme.withReturns := by
  rintro ⟨token, text, start⟩
  cases token with
  | badUrl v => exact .inr ⟨v, withReturns v, rfl, rfl⟩
  | _ => exact .inl rfl

theorem sourceOf_map_withReturns (ls : List Lexeme) :
    Lexeme.sourceOf (ls.map Lexeme.withReturns) = withReturns (Lexeme.sourceOf ls) := by
  induction ls with
  | nil => rfl
  | cons l ls ih =>
    rw [List.map_cons, Lexeme.sourceOf_cons, ih, Lexeme.sourceOf_cons, Text.withReturns_append]
    rfl

/-- The inside of a block has the returns. -/
theorem fst_blockAhead_withReturns (ls : List Lexeme) :
    (blockAhead (ls.map Lexeme.withReturns)).1 = withReturns (blockAhead ls).1 := by
  have hrun : valuesUntil (· == .closing .curly) [] (ls.map Lexeme.withReturns) = _ :=
    valuesUntil_map keepsTokens_withReturns
      (keepsTokens_withReturns.eq (g := (· == .closing .curly)) fun _ _ => rfl) [] ls
  simp only [blockAhead, hrun]
  exact sourceOf_map_withReturns _

/-- Lexemes stand where they stood, and so does the end of the text. -/
theorem placeOf_map_withReturns {t : Text} (hr : '\r' ∉ t) (ls : List Lexeme) :
    placeOf (endPlace (withReturns t)) (ls.map Lexeme.withReturns) =
      placeOf (endPlace t) ls := by
  cases ls with
  | nil => exact (lexemes_withReturns hr).2
  | cons l ls => rfl

/-! ## Issues -/

section Issues

variable {t : Text} (hr : '\r' ∉ t)

include hr

theorem sheetFault?_withReturns :
    sheetFault? (withReturns t) = (sheetFault? t).map (List.map Lexeme.withReturns) := by
  rw [sheetFault?, (lexemes_withReturns hr).1,
    ruleStarts_map keepsTokens_withReturns (endPlace t)]
  refine findSome?_map_map fun s hs => ?_
  obtain ⟨l, ls, rfl⟩ := List.exists_cons_of_ne_nil (ruleStarts_suffix hs).1
  exact ruleFault?_map keepsTokens_withReturns l ls

theorem blockFault?_withReturns :
    blockFault? (withReturns t) = (blockFault? t).map (List.map Lexeme.withReturns) := by
  rw [blockFault?, (lexemes_withReturns hr).1,
    itemStarts_map keepsTokens_withReturns (endPlace t)]
  refine findSome?_map_map fun s hs => ?_
  obtain ⟨l, ls, rfl⟩ := List.exists_cons_of_ne_nil (itemStarts_suffix hs).1
  exact itemFault?_map keepsTokens_withReturns l ls

end Issues

/-- Neither reading has an issue, or both have one, at the same place. -/
inductive AtSamePlace : Option Issue → Option Issue → Prop
  | sound : AtSamePlace none none
  | fault {i i' : Issue} (hline : i'.line = i.line) (hcolumn : i'.column = i.column) :
      AtSamePlace (some i) (some i')

/-- Issues that show at the same point are at the same place. -/
theorem atSamePlace_of_showsAt {t : Text} (hr : '\r' ∉ t) {i i' : Option Issue}
    {point : Option (List Lexeme)} (h : ShowsAt t i point)
    (h' : ShowsAt (withReturns t) i' (point.map (List.map Lexeme.withReturns))) :
    AtSamePlace i i' := by
  cases h with
  | sound => cases h'; exact .sound
  | @fault _ ls hls hline hcolumn =>
    have hplace := placeOf_map_withReturns hr ls
    cases h' with
    | fault hls' hline' hcolumn' =>
      rw [hplace] at hline' hcolumn'
      exact .fault (hline'.trans hline.symm) (hcolumn'.trans hcolumn.symm)

/-- **The first issue of a stylesheet is at the same place.** -/
theorem firstIssue?_parseStylesheet_withReturns {t : Text} (hr : '\r' ∉ t) :
    AtSamePlace (Rule.firstIssue? (parseStylesheet t))
      (Rule.firstIssue? (parseStylesheet (withReturns t))) :=
  atSamePlace_of_showsAt hr (showsAt_parseStylesheet t)
    (sheetFault?_withReturns hr ▸ showsAt_parseStylesheet (withReturns t))

/-- **The first issue of a block is at the same place.** -/
theorem firstIssue?_parseBlock_withReturns {t : Text} (hr : '\r' ∉ t) :
    AtSamePlace (Item.firstIssue? (parseBlock t))
      (Item.firstIssue? (parseBlock (withReturns t))) :=
  atSamePlace_of_showsAt hr (showsAt_parseBlock t)
    (blockFault?_withReturns hr ▸ showsAt_parseBlock (withReturns t))

/-! ## Rules -/

/-- Two rules of one kind; if they are qualified rules, the block of the second is that of the
first with returns, and begins in the same line. -/
inductive SameBlock : Rule → Rule → Prop
  | qualified {r r' : QualifiedRule} (hbody : r'.body = withReturns r.body)
      (hline : r'.bodyLine = r.bodyLine) : SameBlock (.qualified r) (.qualified r')
  | atRule (r r' : AtRule) : SameBlock (.atRule r) (.atRule r')
  | error (i i' : Issue) : SameBlock (.error i) (.error i')

section Rules

variable {t : Text} (hr : '\r' ∉ t) {ls : List Lexeme} (hls : ls <:+ lexemes t)

include hr hls

theorem map_withReturns_suffix : ls.map Lexeme.withReturns <:+ lexemes (withReturns t) := by
  rw [(lexemes_withReturns hr).1]
  exact hls.map _

/-- The block of a qualified rule with returns. -/
theorem body_qualifiedAhead_withReturns {r r' : QualifiedRule}
    (h : (qualifiedAhead false (endPlace t) ls).1 = .ok r)
    (h' : (qualifiedAhead false (endPlace (withReturns t)) (ls.map Lexeme.withReturns)).1 =
      .ok r') :
    r'.body = withReturns r.body ∧ r'.bodyLine = r.bodyLine := by
  obtain ⟨e, block, hskip, -, hbody, hline⟩ := body_qualifiedAhead h
  obtain ⟨e', block', hskip', -, hbody', hline'⟩ := body_qualifiedAhead h'
  have hstop := skipBlanks_valuesUntil_suffix (if false then endsHead else opensBlock) [] ls
  have hstop' := map_withReturns_suffix hr (hstop.trans hls)
  rw [skipBlanks_valuesUntil_map keepsTokens_withReturns
    (keepsTokens_withReturns.endsPrelude false), hskip] at hskip'
  cases hskip'
  rw [hskip] at hstop hstop'
  refine ⟨by rw [hbody', hbody, fst_blockAhead_withReturns], ?_⟩
  rw [hline', hline, stop_eq_placeOf (hstop.trans hls), stop_eq_placeOf hstop',
    placeOf_map_withReturns hr]

theorem sameBlock_qualifiedAhead :
    SameBlock (Rule.ofResult (qualifiedAhead false (endPlace t) ls).1)
      (Rule.ofResult (qualifiedAhead false (endPlace (withReturns t))
        (ls.map Lexeme.withReturns)).1) := by
  have hplace := atSamePlace_of_showsAt hr (showsAt_qualifiedAhead false hls)
    (qualifiedFault?_map keepsTokens_withReturns false ls ▸
      showsAt_qualifiedAhead false (map_withReturns_suffix hr hls))
  cases h : (qualifiedAhead false (endPlace t) ls).1 <;>
    cases h' : (qualifiedAhead false (endPlace (withReturns t))
      (ls.map Lexeme.withReturns)).1 <;> rw [h, h'] at hplace
  case ok.ok r r' =>
    obtain ⟨hbody, hline⟩ := body_qualifiedAhead_withReturns hr hls h h'
    exact .qualified hbody hline
  case error.error i i' => exact .error i i'
  all_goals cases hplace

end Rules

theorem sameBlock_ruleAt {t : Text} (hr : '\r' ∉ t) {l : Lexeme} {ls : List Lexeme}
    (hls : l :: ls <:+ lexemes t) :
    SameBlock (ruleAt (endPlace t) (l :: ls))
      (ruleAt (endPlace (withReturns t)) ((l :: ls).map Lexeme.withReturns)) := by
  have hkeyword : ∀ keyword, l.withReturns.token = .atKeyword keyword ↔
      l.token = .atKeyword keyword := fun keyword =>
    keepsTokens_withReturns.token_eq (fun _ => Token.noConfusion) l
  by_cases hk : ∃ keyword, l.token = .atKeyword keyword
  · obtain ⟨keyword, hk⟩ := hk
    rw [ruleAt_of_atKeyword hk, List.map_cons,
      ruleAt_of_atKeyword ((hkeyword keyword).mpr hk)]
    exact .atRule _ _
  · have hk : ∀ keyword, l.token ≠ .atKeyword keyword := fun keyword h => hk ⟨keyword, h⟩
    rw [ruleAt_of_qualified hk, List.map_cons,
      ruleAt_of_qualified fun keyword h => hk keyword ((hkeyword keyword).mp h)]
    exact sameBlock_qualifiedAhead hr hls

/-- **The rules of a stylesheet keep their kinds, and their blocks have the returns.** -/
theorem parseStylesheet_withReturns {t : Text} (hr : '\r' ∉ t) :
    List.Forall₂ SameBlock (parseStylesheet t) (parseStylesheet (withReturns t)) := by
  rw [parseStylesheet, rulesFrom_eq_map, parseStylesheet, rulesFrom_eq_map,
    (lexemes_withReturns hr).1, ruleStarts_map keepsTokens_withReturns (endPlace t), List.map_map,
    List.forall₂_map_left_iff, List.forall₂_map_right_iff, List.forall₂_same]
  intro s hs
  obtain ⟨hne, hsuffix⟩ := ruleStarts_suffix hs
  obtain ⟨l, ls, rfl⟩ := List.exists_cons_of_ne_nil hne
  exact sameBlock_ruleAt hr hsuffix

end StyleAudit.Css
