import StyleAudit.Proofs.Extract.Semicolons

/-!
# What the lines of a stylesheet keep from being seen

Of the steps of `validate` two read lines.  They stand between the steps that read tokens: the
lines of a block are looked at before the next block is read.  So a line that lacks its semicolon
can be the first failure of a stylesheet whose later blocks cannot be read, and then nobody hears
of these.

`validateGrammar` is `validate` without the two steps.  It differs from `validate` on the
stylesheets of which, block by block, a line is the first thing that is wrong (`LinesFirst`), and
on no others:

* `validate_of_linesFirst` --- there `validate` fails with a missing semicolon;
* `validate_of_not_linesFirst` --- on all others the two agree, so that no issue of a block goes
  unseen;
* `linesFirst_iff` --- both in one.
-/

namespace StyleAudit.Extract

open Css

/-! ## Validation without lines -/

/-- Fails if the block of the rule has an issue.  Its lines are not looked at. -/
def checkRuleItems : Rule → Except Failure Unit
  | .qualified rule => if rule.body.isEmpty then .ok () else checkItems rule
  | _ => .ok ()

/-- The text of a stylesheet if it and its blocks can be read, or else the first failure. -/
def validateGrammarText (t : Text) : Except Failure Text := do
  let rules ← loadSheet t
  rules.forM checkRuleItems
  return t

/-- `validate` without the steps that read lines. -/
def validateGrammar (bytes : List UInt8) : Except Failure Text := do
  validateGrammarText (← decodeSheet bytes)

/-! ## Blocks in which nothing is wrong -/

/-- No item of the rule's block is an issue. -/
def IsReadable (rule : QualifiedRule) : Prop := ∀ issue, Item.error issue ∉ rule.items

/-- No line of a block lacks its semicolon. -/
def BlockInOrder (body : Text) : Prop :=
  (Text.splitLines (Text.trim (blankComments body))).IsChain (InOrder blockGoesOn)

/-- No line of a stylesheet lacks its semicolon. -/
def SheetInOrder (t : Text) : Prop :=
  (Text.splitLines (blankComments t)).IsChain (InOrder sheetGoesOn)

/-- Nothing is wrong with the rule's block, if it is one that is looked at. -/
def Passes : Rule → Prop
  | .qualified rule => IsReadable rule ∧ BlockInOrder rule.body
  | _ => True

theorem firstIssue?_items_eq_none_iff {rule : QualifiedRule} :
    Item.firstIssue? rule.items = none ↔ IsReadable rule :=
  firstItemIssue?_eq_none_iff

theorem checkItems_eq_ok_iff {rule : QualifiedRule} :
    checkItems rule = .ok () ↔ IsReadable rule := by
  rw [← firstIssue?_items_eq_none_iff, checkItems]
  cases Item.firstIssue? rule.items with
  | none => exact iff_of_true rfl rfl
  | some issue => exact iff_of_false (fun h => by cases h) (fun h => by cases h)

/-- A block that has an issue fails as one that cannot be read. -/
theorem exists_of_checkItems_eq_error {rule : QualifiedRule} {e : Failure}
    (h : checkItems rule = .error e) :
    ∃ message line column, e = .parse (some "in declaration") message line column := by
  unfold checkItems at h
  split at h
  · cases h
    exact ⟨_, _, _, rfl⟩
  · cases h

/-- The lines of a block pass, or else one of them lacks its semicolon. -/
theorem checkBlockLines_cases (body : Text) :
    (checkBlockLines body = .ok () ∧ BlockInOrder body) ∨
      ∃ line, checkBlockLines body = .error (.missingSemicolon line none) ∧
        ¬ BlockInOrder body := by
  unfold checkBlockLines
  cases hfound : findUnterminated blockGoesOn 1
      (Text.splitLines (Text.trim (blankComments body))) with
  | none => exact .inl ⟨rfl, findUnterminated_eq_none_iff.mp hfound⟩
  | some found =>
    refine .inr ⟨found.2, rfl, fun h => ?_⟩
    rw [findUnterminated_eq_none_iff.mpr h] at hfound
    cases hfound

/-- The lines of a stylesheet pass, or else one of them lacks its semicolon. -/
theorem checkSheetLines_cases (t : Text) :
    (checkSheetLines t = .ok () ∧ SheetInOrder t) ∨
      ∃ line n, checkSheetLines t = .error (.missingSemicolon line (some n)) ∧
        ¬ SheetInOrder t := by
  unfold checkSheetLines
  cases hfound : findUnterminated sheetGoesOn 1 (Text.splitLines (blankComments t)) with
  | none => exact .inl ⟨rfl, findUnterminated_eq_none_iff.mp hfound⟩
  | some found =>
    refine .inr ⟨found.2, found.1, rfl, fun h => ?_⟩
    rw [findUnterminated_eq_none_iff.mpr h] at hfound
    cases hfound

/-- Nothing is wrong with an empty block. -/
theorem passes_of_isEmpty {rule : QualifiedRule} (h : rule.body.isEmpty = true) :
    IsReadable rule ∧ BlockInOrder rule.body := by
  rw [List.isEmpty_iff] at h
  have hlexemes : lexemes [] = [] := by decide +kernel
  refine ⟨fun issue hmem => ?_, ?_⟩
  · rw [QualifiedRule.items, h, parseBlock, hlexemes, itemsFrom_nil] at hmem
    cases hmem
  · have hlines : Text.splitLines (Text.trim (blankComments [])) = [[]] := by decide +kernel
    rw [h, BlockInOrder, hlines]
    exact .singleton []

/-- **What a rule comes to.**  It passes; or its block has an issue, which is its failure with the
lines and without; or the block can be read but a line lacks its semicolon. -/
theorem checkRule_cases (r : Rule) :
    (Passes r ∧ checkRule r = .ok () ∧ checkRuleItems r = .ok ()) ∨
      (∃ rule, r = .qualified rule ∧ ¬ IsReadable rule ∧ ∃ message line column,
        checkRule r = .error (.parse (some "in declaration") message line column) ∧
        checkRuleItems r = .error (.parse (some "in declaration") message line column)) ∨
      ∃ rule, r = .qualified rule ∧ IsReadable rule ∧ ¬ BlockInOrder rule.body ∧
        ∃ line, checkRule r = .error (.missingSemicolon line none) ∧
          checkRuleItems r = .ok () := by
  cases r with
  | atRule rule => exact .inl ⟨trivial, rfl, rfl⟩
  | error issue => exact .inl ⟨trivial, rfl, rfl⟩
  | qualified rule =>
    simp only [checkRule, checkRuleItems]
    by_cases hempty : rule.body.isEmpty = true
    · rw [if_pos hempty, if_pos hempty]
      exact .inl ⟨passes_of_isEmpty hempty, rfl, rfl⟩
    rw [if_neg hempty, if_neg hempty]
    cases hitems : checkItems rule with
    | error e =>
      obtain ⟨message, line, column, rfl⟩ := exists_of_checkItems_eq_error hitems
      refine .inr (.inl ⟨rule, rfl, fun h => ?_, message, line, column, rfl, rfl⟩)
      rw [checkItems_eq_ok_iff.mpr h] at hitems
      cases hitems
    | ok =>
      have hreadable := checkItems_eq_ok_iff.mp hitems
      rcases checkBlockLines_cases rule.body with ⟨hlines, horder⟩ | ⟨line, hlines, horder⟩
      · exact .inl ⟨⟨hreadable, horder⟩, hlines, rfl⟩
      · exact .inr (.inr ⟨rule, rfl, hreadable, horder, line, hlines, rfl⟩)

/-! ## Lines that come first -/

/-- The first thing that is wrong with the rules of a stylesheet that can be read is a line:
a line of a block that can be read, with nothing wrong in the blocks before it; or, with nothing
wrong in any block, a line of the whole stylesheet. -/
inductive LinesFirst (bytes : List UInt8) : Prop
  | block {before after : List Rule} {rule : QualifiedRule}
      (hread : readSheet bytes = .ok (before ++ .qualified rule :: after))
      (hbefore : ∀ r ∈ before, Passes r) (hreadable : IsReadable rule)
      (hlines : ¬ BlockInOrder rule.body)
  | sheet {t : Text} {rules : List Rule} (hbytes : Utf8.decode bytes = .ok t)
      (hread : readSheet bytes = .ok rules) (hrules : ∀ r ∈ rules, Passes r)
      (hlines : ¬ SheetInOrder t)

theorem checkRule_of_passes {r : Rule} (h : Passes r) :
    checkRule r = .ok () ∧ checkRuleItems r = .ok () := by
  rcases checkRule_cases r with ⟨-, hr⟩ | ⟨rule, rfl, hissue, -⟩ | ⟨rule, rfl, -, hlines, -⟩
  · exact hr
  · exact absurd h.1 hissue
  · exact absurd h.2 hlines

theorem passes_of_checkRule_eq_ok {r : Rule} (h : checkRule r = .ok ()) : Passes r := by
  rcases checkRule_cases r with ⟨hpass, -⟩ | ⟨-, -, -, _, _, _, hr, -⟩ | ⟨-, -, -, -, _, hr, -⟩
  · exact hpass
  all_goals
    rw [hr] at h
    cases h

theorem validateGrammar_of_loadSheet {bytes : List UInt8} {t : Text} {rules : List Rule}
    (hbytes : Utf8.decode bytes = .ok t) (hload : loadSheet t = .ok rules) :
    validateGrammar bytes = (do rules.forM checkRuleItems; return t) := by
  rw [validateGrammar, decodeSheet_eq_ok_iff.mpr hbytes]
  show validateGrammarText t = _
  rw [validateGrammarText, hload]
  rfl

theorem validateGrammar_of_readSheet {bytes : List UInt8} {e : Failure}
    (h : readSheet bytes = .error e) : validateGrammar bytes = .error e := by
  rw [readSheet, bind_eq_error] at h
  refine bind_eq_error.mpr ?_
  rcases h with h | ⟨t, ht, h⟩
  · exact .inl h
  · exact .inr ⟨t, ht, bind_eq_error.mpr (.inl h)⟩

/-- **Where lines come first, the failure is a missing semicolon.** -/
theorem validate_of_linesFirst {bytes : List UInt8} (h : LinesFirst bytes) :
    ∃ line number, validate bytes = .error (.missingSemicolon line number) := by
  cases h with
  | @block before after rule hread hbefore hreadable hlines =>
    obtain ⟨t, hbytes, hload⟩ := exists_decode_of_readSheet hread
    rw [validate_of_loadSheet hbytes hload,
      forM_append_cons fun r hr => (checkRule_of_passes (hbefore r hr)).1]
    rcases checkRule_cases (.qualified rule) with ⟨hpass, -⟩ | ⟨q, hq, hissue, -⟩ |
      ⟨-, -, -, -, line, hrule, -⟩
    · exact absurd hpass.2 hlines
    · cases hq
      exact absurd hreadable hissue
    · rw [hrule]
      exact ⟨line, none, rfl⟩
  | @sheet t rules hbytes hread hrules hlines =>
    obtain ⟨t', hbytes', hload⟩ := exists_decode_of_readSheet hread
    cases hbytes.symm.trans hbytes'
    rw [validate_of_loadSheet hbytes hload,
      forM_eq_ok fun r hr => (checkRule_of_passes (hrules r hr)).1]
    rcases checkSheetLines_cases t with ⟨-, horder⟩ | ⟨line, n, hsheet, -⟩
    · exact absurd horder hlines
    · rw [hsheet]
      exact ⟨line, some n, rfl⟩

/-- The blocks of a stylesheet, one after the other: all pass, or one is the first that does
not, for its lines or for an issue. -/
theorem forM_checkRule_cases (rules : List Rule) :
    (∀ r ∈ rules, Passes r) ∨
      (∃ before rule after, rules = before ++ .qualified rule :: after ∧
        (∀ r ∈ before, Passes r) ∧ IsReadable rule ∧ ¬ BlockInOrder rule.body) ∨
      ∃ e, rules.forM checkRule = .error e ∧ rules.forM checkRuleItems = .error e := by
  induction rules with
  | nil => exact .inl (by simp)
  | cons r rules ih =>
    rw [forM_cons, forM_cons]
    rcases checkRule_cases r with ⟨hpass, hr, hitems⟩ | ⟨-, -, -, _, _, _, hr, hitems⟩ |
      ⟨rule, rfl, hreadable, hlines, -⟩
    · rw [hr, hitems]
      rcases ih with hrules | ⟨before, rule, after, rfl, hbefore, hrule⟩ | hfail
      · exact .inl (List.forall_mem_cons.mpr ⟨hpass, hrules⟩)
      · exact .inr (.inl ⟨r :: before, rule, after, rfl,
          List.forall_mem_cons.mpr ⟨hpass, hbefore⟩, hrule⟩)
      · exact .inr (.inr hfail)
    · rw [hr, hitems]
      exact .inr (.inr ⟨_, rfl, rfl⟩)
    · exact .inr (.inl ⟨[], rule, rules, rfl, by simp, hreadable, hlines⟩)

/-- **Where lines do not come first, they do not matter.** -/
theorem validate_of_not_linesFirst {bytes : List UInt8} (h : ¬ LinesFirst bytes) :
    validate bytes = validateGrammar bytes := by
  cases hread : readSheet bytes with
  | error e =>
    have hfail : AllFail bytes [] [] e := allFail_of_readSheet hread
    rw [hfail.validate, validateGrammar_of_readSheet hread]
  | ok rules =>
    obtain ⟨t, hbytes, hload⟩ := exists_decode_of_readSheet hread
    rw [validate_of_loadSheet hbytes hload, validateGrammar_of_loadSheet hbytes hload]
    rcases forM_checkRule_cases rules with hrules |
      ⟨before, rule, after, rfl, hbefore, hreadable, hlines⟩ | ⟨e, hrules, hitems⟩
    · rw [forM_eq_ok fun r hr => (checkRule_of_passes (hrules r hr)).1,
        forM_eq_ok fun r hr => (checkRule_of_passes (hrules r hr)).2]
      rcases checkSheetLines_cases t with ⟨hsheet, -⟩ | ⟨-, -, -, hlines⟩
      · rw [hsheet]
        rfl
      · exact absurd (.sheet hbytes hread hrules hlines) h
    · exact absurd (.block hread hbefore hreadable hlines) h
    · rw [hrules, hitems]
      rfl

theorem validateGrammar_ne_missingSemicolon (bytes : List UInt8) (line : Text)
    (number : Option Nat) : validateGrammar bytes ≠ .error (.missingSemicolon line number) := by
  intro h
  cases hread : readSheet bytes with
  | error e =>
    rw [validateGrammar_of_readSheet hread] at h
    cases h
    cases readSheet_eq_error_iff.mp hread
  | ok rules =>
    obtain ⟨t, hbytes, hload⟩ := exists_decode_of_readSheet hread
    rw [validateGrammar_of_loadSheet hbytes hload] at h
    rcases bind_eq_error.mp h with h | ⟨-, -, h⟩
    · obtain ⟨-, r, -, -, -, hr⟩ := exists_split_of_forM_eq_error h
      rcases checkRule_cases r with ⟨-, -, hitems⟩ | ⟨-, -, -, _, _, _, -, hitems⟩ |
        ⟨-, -, -, -, -, -, hitems⟩
      all_goals
        rw [hitems] at hr
        cases hr
    · cases h

/-- **Lines come first exactly where it matters to the validation that they are looked at.** -/
theorem linesFirst_iff {bytes : List UInt8} :
    LinesFirst bytes ↔ validate bytes ≠ validateGrammar bytes := by
  refine ⟨fun h heq => ?_, fun hne => by_contra fun h => hne (validate_of_not_linesFirst h)⟩
  obtain ⟨line, number, hvalidate⟩ := validate_of_linesFirst h
  exact validateGrammar_ne_missingSemicolon bytes line number (heq ▸ hvalidate)

/-! ## What validation without lines comes to -/

section Grammar

variable {bytes : List UInt8} {rules : List Rule}

/-- A block that has an issue fails the validation without lines. -/
theorem exists_validateGrammar_eq_error {rule : QualifiedRule}
    (hread : readSheet bytes = .ok rules) (hrule : .qualified rule ∈ rules)
    (hissue : ¬ IsReadable rule) : ∃ message line column,
      validateGrammar bytes = .error (.parse (some "in declaration") message line column) := by
  obtain ⟨t, hbytes, hload⟩ := exists_decode_of_readSheet hread
  rw [validateGrammar_of_loadSheet hbytes hload]
  clear hread hload
  induction rules with
  | nil => cases hrule
  | cons r rules ih =>
    rw [forM_cons]
    rcases checkRule_cases r with ⟨hpass, -, hitems⟩ | ⟨-, -, -, _, _, _, -, hitems⟩ |
      ⟨q, rfl, hreadable, -, -, -, hitems⟩
    · rw [hitems]
      rcases List.mem_cons.mp hrule with rfl | hrule
      · exact absurd hpass.1 hissue
      · exact ih hrule
    · rw [hitems]
      exact ⟨_, _, _, rfl⟩
    · rw [hitems]
      rcases List.mem_cons.mp hrule with hq | hrule
      · cases hq
        exact absurd hreadable hissue
      · exact ih hrule

/-- A stylesheet of which all blocks can be read passes the validation without lines. -/
theorem exists_validateGrammar_eq_ok (hread : readSheet bytes = .ok rules)
    (hrules : ∀ rule, .qualified rule ∈ rules → IsReadable rule) :
    ∃ t, Utf8.decode bytes = .ok t ∧ validateGrammar bytes = .ok t := by
  obtain ⟨t, hbytes, hload⟩ := exists_decode_of_readSheet hread
  have hitems : ∀ r ∈ rules, checkRuleItems r = .ok () := by
    intro r hr
    rcases checkRule_cases r with ⟨-, -, hitems⟩ | ⟨rule, rfl, hissue, -⟩ |
      ⟨-, -, -, -, -, -, hitems⟩
    · exact hitems
    · exact absurd (hrules rule hr) hissue
    · exact hitems
  refine ⟨t, hbytes, ?_⟩
  rw [validateGrammar_of_loadSheet hbytes hload, forM_eq_ok hitems]
  rfl

end Grammar

end StyleAudit.Extract
