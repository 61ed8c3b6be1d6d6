import StyleAudit.Extract.Validity
import StyleAudit.Proofs.Css.Blanking
import StyleAudit.Proofs.Css.ReadReturns
import StyleAudit.Proofs.Extract.Refusal

/-!
# Validity does not depend on the kind of line ends

A text without carriage returns is judged as it is judged with a return before every line feed
(`validate_withReturns`).  The two runs are followed side by side, step by step: `SameOutcome`
says that both succeed or that both fail alike, and goes through the steps of a run
(`SameOutcome.bind`, `sameTest_forM`).

* Braces are counted, and returns are none.
* Rules are read alike, and issues are at the same places
  (`firstIssue?_parseStylesheet_withReturns`).
* The block of a rule has the returns too, so it is read with them a second time.
* The semicolon checks cut lines at line feeds, so lines get a return at their ends.  Inside a
  comment they get none, since only the line feeds of a comment are left
  (`returned_blankComments`).  Lines are looked at trimmed, and so the same line is found
  (`findUnterminated_congr`).

What can differ is the text of a message, in which a token that could not be read is described
with the returns in it.
-/

namespace StyleAudit.Css

open Text (withReturns Returned)

/-! ## Comments with returns -/

theorem splitAtCommentEnd?_withReturns (t : Text) :
    splitAtCommentEnd? (withReturns t) =
      (splitAtCommentEnd? t).map (Prod.map withReturns withReturns) := by
  fun_induction splitAtCommentEnd? t with
  | case1 t =>
    rw [Text.withReturns_cons (by decide), Text.withReturns_cons (by decide), splitAtCommentEnd?]
    rfl
  | case2 c t hend ih =>
    by_cases hc : c = '\n'
    · subst hc
      rw [Text.withReturns_newline, splitAtCommentEnd?_cons (fun _ h => absurd h (by decide)),
        splitAtCommentEnd?_cons (fun _ h => absurd h (by decide)), ih]
      cases splitAtCommentEnd? t <;> rfl
    · have hend' : ∀ u, c = '*' → withReturns t = '/' :: u → False := by
        intro u hstar hslash
        obtain ⟨v, hv⟩ := Text.exists_cons_of_head?_withReturns (c := '/') (t := t) (by decide)
          (by decide) (by rw [hslash]; rfl)
        exact hend v hstar hv
      rw [Text.withReturns_cons hc, splitAtCommentEnd?_cons hend', ih]
      cases splitAtCommentEnd? t with
      | none => rfl
      | some r => simp [Text.withReturns_cons hc]
  | case3 => rfl

theorem filter_newline_withReturns (t : Text) :
    (withReturns t).filter (· == '\n') = t.filter (· == '\n') := by
  induction t with
  | nil => rfl
  | cons c t ih =>
    by_cases hc : c = '\n'
    · subst hc
      rw [Text.withReturns_newline, List.filter_cons_of_neg (by decide),
        List.filter_cons_of_pos rfl, List.filter_cons_of_pos rfl, ih]
    · rw [Text.withReturns_cons hc, List.filter_cons_of_neg (by simpa using hc),
        List.filter_cons_of_neg (by simpa using hc), ih]

/-- **Outside its comments a text keeps the returns.** -/
theorem returned_blankComments (t : Text) :
    Returned (blankComments t) (blankComments (withReturns t)) := by
  fun_induction blankComments t with
  | case1 t inside rest hsplit ih =>
    have hsplit' : splitAtCommentEnd? (withReturns t) =
        some (withReturns inside, withReturns rest) := by
      rw [splitAtCommentEnd?_withReturns, hsplit]
      rfl
    rw [Text.withReturns_cons (by decide), Text.withReturns_cons (by decide),
      blankComments_comment hsplit', filter_newline_withReturns]
    exact ih.append_left _
  | case2 t hsplit =>
    have hsplit' : splitAtCommentEnd? (withReturns t) = none := by
      rw [splitAtCommentEnd?_withReturns, hsplit]
      rfl
    rw [Text.withReturns_cons (by decide), Text.withReturns_cons (by decide),
      blankComments_open hsplit']
    exact .keep _ (.keep _ (Text.returned_withReturns t))
  | case3 c t hopen ih =>
    by_cases hc : c = '\n'
    · subst hc
      rw [Text.withReturns_newline, blankComments_cons (fun _ h => absurd h (by decide)),
        blankComments_cons (fun _ h => absurd h (by decide))]
      exact .add ih
    · have hopen' : ∀ u, c = '/' → withReturns t = '*' :: u → False := by
        intro u hslash hstar
        obtain ⟨v, hv⟩ := Text.exists_cons_of_head?_withReturns (c := '*') (t := t) (by decide)
          (by decide) (by rw [hstar]; rfl)
        exact hopen v hslash hv
      rw [Text.withReturns_cons hc, blankComments_cons hopen']
      exact .keep c ih
  | case4 =>
    rw [Text.withReturns_nil, blankComments]
    exact .nil

end StyleAudit.Css

namespace StyleAudit.Extract

open Css
open Text (withReturns Returned LineReturned)

/-! ## The semicolon checks -/

/-- The search reads lines trimmed, so returns at their ends make no difference to it. -/
theorem findUnterminated_congr {goesOn : Text → Bool}
    (hgoes : ∀ line line', LineReturned line line' → goesOn line' = goesOn line)
    {lines lines' : List Text} (h : List.Forall₂ LineReturned lines lines') (n : Nat) :
    findUnterminated goesOn n lines' = findUnterminated goesOn n lines := by
  induction h generalizing n with
  | nil => rfl
  | cons hline hlines ih =>
    cases hlines with
    | nil => rfl
    | cons hnext hrest =>
      rw [findUnterminated, findUnterminated, ih, hline.trim_eq, hgoes _ _ hnext]

theorem blockGoesOn_of_lineReturned {line line' : Text} (h : LineReturned line line') :
    blockGoesOn line' = blockGoesOn line := by
  have hcolon : line'.contains ':' = line.contains ':' := by
    rcases h with rfl | rfl
    · rfl
    · simp
  rw [blockGoesOn, blockGoesOn, hcolon, h.trim_eq]

theorem sheetGoesOn_of_lineReturned {line line' : Text} (h : LineReturned line line') :
    sheetGoesOn line' = sheetGoesOn line := by
  rw [sheetGoesOn, sheetGoesOn, h.trim_eq]

/-- The lines of a block with returns are judged like those of the block. -/
theorem checkBlockLines_withReturns (body : Text) :
    checkBlockLines (withReturns body) = checkBlockLines body := by
  rw [checkBlockLines, checkBlockLines, findUnterminated_congr
    (fun _ _ => blockGoesOn_of_lineReturned) (returned_blankComments body).trim.splitLines]

/-- The lines of a stylesheet with returns are judged like those of the stylesheet. -/
theorem checkSheetLines_withReturns (t : Text) :
    checkSheetLines (withReturns t) = checkSheetLines t := by
  rw [checkSheetLines, checkSheetLines, findUnterminated_congr
    (fun _ _ => sheetGoesOn_of_lineReturned) (returned_blankComments t).splitLines]

/-! ## Two runs side by side -/

/-- Two failures of one kind that agree on everything but the text of a parse failure's
message. -/
inductive SameFailure : Failure → Failure → Prop
  | unbalancedBraces (opening closing : Nat) :
      SameFailure (.unbalancedBraces opening closing) (.unbalancedBraces opening closing)
  | parse (context : Option String) (message message' : String) (line column : Nat) :
      SameFailure (.parse context message line column) (.parse context message' line column)
  | missingSemicolon (line : Text) (number : Option Nat) :
      SameFailure (.missingSemicolon line number) (.missingSemicolon line number)

theorem SameFailure.line?_eq {e e' : Failure} (h : SameFailure e e') : e'.line? = e.line? := by
  cases h <;> rfl

theorem SameFailure.checkId_eq {e e' : Failure} (h : SameFailure e e') :
    e'.checkId = e.checkId := by
  cases h <;> rfl

/-- Both runs succeed, with results that are related, or both fail alike. -/
inductive SameOutcome {α β : Type} (R : α → β → Prop) :
    Except Failure α → Except Failure β → Prop
  | ok {a : α} {b : β} (h : R a b) : SameOutcome R (.ok a) (.ok b)
  | error {e e' : Failure} (h : SameFailure e e') : SameOutcome R (.error e) (.error e')

/-- Both tests pass, or both fail alike. -/
abbrev SameTest (x y : Except Failure Unit) : Prop := SameOutcome (fun _ _ => True) x y

section SameOutcome

variable {α β γ δ : Type} {R : α → β → Prop} {S : γ → δ → Prop}

theorem SameOutcome.bind {x : Except Failure α} {y : Except Failure β} {f : α → Except Failure γ}
    {g : β → Except Failure δ} (h : SameOutcome R x y)
    (hnext : ∀ a b, R a b → SameOutcome S (f a) (g b)) : SameOutcome S (x >>= f) (y >>= g) := by
  cases h with
  | ok h => exact hnext _ _ h
  | error h => exact .error h

/-- Tests that come out alike one by one come out alike together. -/
theorem sameTest_forM {f : α → Except Failure Unit} {g : β → Except Failure Unit}
    {l : List α} {l' : List β} (h : List.Forall₂ (fun a b => SameTest (f a) (g b)) l l') :
    SameTest (l.forM f) (l'.forM g) := by
  induction h with
  | nil => exact .ok trivial
  | cons hab hrest ih => exact hab.bind fun _ _ _ => ih

end SameOutcome

/-! ## The steps of a run -/

theorem sameTest_checkBraces (t : Text) :
    SameTest (checkBraces t) (checkBraces (withReturns t)) := by
  simp only [checkBraces, Text.count_withReturns (c := '\x7b') (by decide),
    Text.count_withReturns (c := '\x7d') (by decide)]
  split
  · exact .ok trivial
  · exact .error (.unbalancedBraces _ _)

theorem sameTest_checkIssues {rules rules' : List Rule}
    (h : AtSamePlace (Rule.firstIssue? rules) (Rule.firstIssue? rules')) :
    SameTest (checkIssues rules) (checkIssues rules') := by
  unfold checkIssues
  generalize Rule.firstIssue? rules = issue, Rule.firstIssue? rules' = issue' at h
  cases h with
  | sound => exact .ok trivial
  | fault hline hcolumn =>
    simp only [Failure.ofIssue, hline, hcolumn]
    exact .error (.parse _ _ _ _ _)

/-- A sheet with returns is refused alike, or has the rules of the sheet with returns. -/
theorem sameOutcome_loadSheet {t : Text} (hr : '\r' ∉ t) :
    SameOutcome (fun rules rules' => rules = parseStylesheet t ∧ rules.Forall₂ SameBlock rules')
      (loadSheet t) (loadSheet (withReturns t)) :=
  (sameTest_checkBraces t).bind fun _ _ _ =>
    (sameTest_checkIssues (firstIssue?_parseStylesheet_withReturns hr)).bind fun _ _ _ =>
      .ok ⟨rfl, parseStylesheet_withReturns hr⟩

theorem sameTest_checkItems {r r' : QualifiedRule} (hr : '\r' ∉ r.body)
    (hbody : r'.body = withReturns r.body) (hline : r'.bodyLine = r.bodyLine) :
    SameTest (checkItems r) (checkItems r') := by
  have hplace := firstIssue?_parseBlock_withReturns hr
  rw [← hbody] at hplace
  unfold checkItems QualifiedRule.items
  generalize Item.firstIssue? (parseBlock r.body) = issue,
    Item.firstIssue? (parseBlock r'.body) = issue' at hplace
  cases hplace with
  | sound => exact .ok trivial
  | fault hissue hcolumn =>
    simp only [hline, hissue, hcolumn]
    exact .error (.parse _ _ _ _ _)

theorem sameTest_checkBlockLines (body : Text) :
    SameTest (checkBlockLines body) (checkBlockLines (withReturns body)) := by
  rw [checkBlockLines_withReturns]
  unfold checkBlockLines
  split
  · exact .error (.missingSemicolon _ _)
  · exact .ok trivial

theorem sameTest_checkSheetLines (t : Text) :
    SameTest (checkSheetLines t) (checkSheetLines (withReturns t)) := by
  rw [checkSheetLines_withReturns]
  unfold checkSheetLines
  split
  · exact .error (.missingSemicolon _ _)
  · exact .ok trivial

/-- **A rule whose block gets returns is judged alike.** -/
theorem sameTest_checkRule {rule rule' : Rule} (h : SameBlock rule rule')
    (hr : ∀ body, rule.body? = some body → '\r' ∉ body) :
    SameTest (checkRule rule) (checkRule rule') := by
  cases h with
  | atRule r r' => exact .ok trivial
  | error i i' => exact .ok trivial
  | @qualified r r' hbody hline =>
    have hempty : r'.body.isEmpty = r.body.isEmpty := by
      rw [hbody, Bool.eq_iff_iff, List.isEmpty_iff, List.isEmpty_iff, Text.withReturns_eq_nil_iff]
    simp only [checkRule, hempty]
    split
    · exact .ok trivial
    · refine (sameTest_checkItems (hr _ rfl) hbody hline).bind fun _ _ _ => ?_
      rw [hbody]
      exact sameTest_checkBlockLines r.body

/-- The rules of a sheet, one after the other. -/
theorem sameTest_forM_checkRule {t : Text} (hr : '\r' ∉ t) {rules' : List Rule}
    (h : (parseStylesheet t).Forall₂ SameBlock rules') :
    SameTest ((parseStylesheet t).forM checkRule) (rules'.forM checkRule) := by
  have hbodies : ∀ rule ∈ parseStylesheet t, ∀ body, rule.body? = some body → '\r' ∉ body :=
    fun rule hrule body hbody hmem =>
      hr ((body_of_mem_parseStylesheet hrule hbody).1.subset hmem)
  have hrules := (List.forall₂_and_left _ _).mpr ⟨hbodies, h⟩
  exact sameTest_forM (hrules.imp fun _ _ hrule => sameTest_checkRule hrule.2 hrule.1)

/-- **A text is judged as it is with returns.** -/
theorem sameOutcome_validateText {t : Text} (hr : '\r' ∉ t) :
    SameOutcome (fun u u' => u = t ∧ u' = withReturns t) (validateText t)
      (validateText (withReturns t)) := by
  refine (sameOutcome_loadSheet hr).bind fun rules rules' hrules => ?_
  obtain ⟨rfl, hblocks⟩ := hrules
  exact (sameTest_forM_checkRule hr hblocks).bind fun _ _ _ =>
    (sameTest_checkSheetLines t).bind fun _ _ _ => .ok ⟨rfl, rfl⟩

/-- **Returns before the line feeds do not change the verdict.**  If a text without carriage
returns is valid, so is the text with a return before every line feed.  If it is not, both fail,
with failures of one kind that point at one line; where a semicolon is missing, the text of that
line is the same too. -/
theorem validate_withReturns (t : Text) (hr : '\r' ∉ t) :
    (validate (Utf8.encode t) = .ok t ∧
        validate (Utf8.encode (withReturns t)) = .ok (withReturns t)) ∨
      ∃ e e', validate (Utf8.encode t) = .error e ∧
        validate (Utf8.encode (withReturns t)) = .error e' ∧
        SameFailure e e' ∧ e'.checkId = e.checkId ∧ e'.line? = e.line? := by
  rw [validate_encode, validate_encode]
  have h := sameOutcome_validateText hr
  generalize validateText t = x, validateText (withReturns t) = y at h
  cases h with
  | ok h => exact .inl ⟨congrArg _ h.1, congrArg _ h.2⟩
  | error h => exact .inr ⟨_, _, rfl, rfl, h, h.checkId_eq, h.line?_eq⟩

/-- A block whose first declaration has no semicolon, and a comment over two lines instead. -/
def openLine : Text := "a\x7b\nb:c/*\n*/\nd:e;\n\x7d".toList

/-- The same line is found with returns. -/
theorem validate_withReturns_openLine :
    '\r' ∉ openLine ∧
      validate (Utf8.encode openLine) = .error (.missingSemicolon "b:c".toList none) ∧
      validate (Utf8.encode (withReturns openLine)) =
        .error (.missingSemicolon "b:c".toList none) := by
  let rule : QualifiedRule := ⟨['a'], "\nb:c/*\n*/\nd:e;".toList, 1, 1⟩
  have hr : '\r' ∉ openLine := by decide
  have hload : loadSheet openLine = .ok [.qualified rule] :=
    loadSheet_eq_ok_iff.mpr ⟨by decide, by decide +kernel, by decide +kernel⟩
  have hitems : checkItems rule = .ok () := by
    rw [checkItems, show Item.firstIssue? rule.items = none by decide +kernel]
  have hlines : checkBlockLines rule.body = .error (.missingSemicolon "b:c".toList none) := by
    rw [checkBlockLines, show findUnterminated blockGoesOn 1
      (Text.splitLines (Text.trim (blankComments rule.body))) = some (1, "b:c".toList)
      by decide +kernel]
  have hrule : checkRule (.qualified rule) = .error (.missingSemicolon "b:c".toList none) :=
    bind_eq_error.mpr (.inr ⟨(), hitems, hlines⟩)
  have h : validate (Utf8.encode openLine) = .error (.missingSemicolon "b:c".toList none) := by
    rw [validate_encode, validateText, hload]
    exact bind_eq_error.mpr
      (.inr ⟨_, rfl, bind_eq_error.mpr (.inl (bind_eq_error.mpr (.inl hrule)))⟩)
  refine ⟨hr, h, ?_⟩
  rcases validate_withReturns openLine hr with ⟨hok, -⟩ | ⟨e, e', he, he', hsame, -⟩
  · rw [h] at hok
    cases hok
  · rw [h] at he
    cases he
    cases hsame
    exact he'

end StyleAudit.Extract
